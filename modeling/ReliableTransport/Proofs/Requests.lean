import ReliableTransport.Calls
import ReliableTransport.Proofs.Numbering

/-! Everything that can be asked of an outbox, in any order. A run of requests leaves a log of what
was asked and answered, and the outbox can always be read off the log: its slots are the payloads
accepted after the acknowledged point, and no cursor leaves the ring (`Steady`). After
the handshake accepted payloads are therefore numbered from one, in order and without gaps, and leave
under the numbers they were accepted under. -/
namespace ReliableTransport
namespace Outbox

open Signed

inductive Request
  | push (payload : Bytes)
  | acknowledge (fragment window : Int32) (now : Nat)
  | establish (window : Int32) (now : Nat)
  | next (now : Nat) (minWindow : Int32) (threshold : Nat)
  deriving DecidableEq

inductive Reply
  | held (fragment : Int32)
  | refused
  | released (count : Nat)
  | opened (first : Bool)
  | acted (action : Action)
  deriving DecidableEq

/-- What was asked and answered, the oldest first. -/
abbrev Log := List (Request × Reply)

def serve (b : Outbox) (q : Request) : Outbox × Log :=
  match q with
  | .push payload =>
    match b.push payload with
    | some (fragment,c) => (c,[(q,.held fragment)])
    | none => (b,[(q,.refused)])
  | .acknowledge fragment window now =>
    let (count,c) := b.acknowledge fragment window now
    (c,[(q,.released count)])
  | .establish window now =>
    match b.establish window now with
    | some c => (c,[(q,.opened true)])
    | none => (b,[(q,.opened false)])
  | .next now minWindow threshold =>
    let (action,c) := b.next now minWindow threshold
    (c,[(q,.acted action)])

namespace Log

def payloads (log : Log) : List Bytes :=
  log.filterMap fun
    | (.push payload,.held _) => some payload
    | _ => none

def numbers (log : Log) : List Int32 :=
  log.filterMap fun
    | (_,.held fragment) => some fragment
    | _ => none

/-- The fragments that were sent, each with its payload. -/
def sent (log : Log) : List (Int32 × Bytes) :=
  log.filterMap fun
    | (_,.acted (.transmit fragment payload)) => some (fragment,payload)
    | _ => none

theorem payloads_append (log more : Log) :
    payloads (log ++ more) = payloads log ++ payloads more := List.filterMap_append

theorem numbers_append (log more : Log) :
    numbers (log ++ more) = numbers log ++ numbers more := List.filterMap_append

theorem sent_append (log more : Log) : sent (log ++ more) = sent log ++ sent more :=
  List.filterMap_append

end Log

open Log

variable {b c : Outbox} {pushed : List Bytes}

/-- An outbox after its handshake that keeps what was pushed, with the highest fragment sent at
most a ring ahead of the cursor. -/
structure Steady (b : Outbox) (pushed : List Bytes) : Prop where
  keeps : b.Keeps pushed
  near : b.highestSent.toInt ≤ b.lastSent.toInt + ringCapacity

theorem Steady.push_of_full (h : b.Steady pushed) (payload : Bytes)
    (hf : pushed.length = b.lastAcked.toInt + ringCapacity) : b.push payload = none := by
  have hl := h.keeps.length_slots
  have hfull : b.full = true := by
    simp only [full,decide_eq_true_eq]
    omega
  rw [push,if_pos hfull]

theorem Steady.push_of_room (h : b.Steady pushed) (payload : Bytes)
    (hroom : pushed.length < b.lastAcked.toInt + ringCapacity)
    (hfew : (pushed ++ [payload]).length < fragmentLimit) :
    b.push payload = some (Int32.ofNat (pushed.length + 1),b.extend [payload]) ∧
      (b.extend [payload]).Steady (pushed ++ [payload]) := by
  have hl := h.keeps.length_slots
  have hfree : 0 < b.room := by
    unfold room
    omega
  refine ⟨?_,h.keeps.push ?_ hfew,h.near⟩
  · rw [Outbox.push_of_room hfree,h.keeps.next_number hfew]
  · rw [List.length_singleton]
    omega

/-- Pushing fails exactly when as many payloads are unacknowledged as the ring has slots. -/
theorem Steady.push_eq_none_iff (h : b.Steady pushed) (payload : Bytes) :
    b.push payload = none ↔ (pushed.length : Int) - b.lastAcked.toInt = ringCapacity := by
  have hl := h.keeps.length_slots
  have hr := h.keeps.room
  constructor
  · intro hnone
    have hfull : ringCapacity ≤ b.slots.length := by simpa [push,full] using hnone
    omega
  · intro hf
    exact h.push_of_full payload (by omega)

theorem Steady.acknowledge (h : b.Steady pushed) (fragment window : Int32) (now : Nat) :
    (b.acknowledge fragment window now).2.Steady pushed := by
  refine ⟨h.keeps.acknowledge fragment window now,?_⟩
  rw [(h.keeps.acknowledge_bounds fragment window now).1,
    h.keeps.lastSent_acknowledge fragment window now]
  exact h.near

/-- A rest moves the cursor on to the acknowledged point, or back to it. -/
theorem Steady.rest (h : b.Steady pushed) (now threshold : Nat) :
    (∃ rewound, (next.rest now threshold b b.cursor).1 = .idle rewound) ∧
      (next.rest now threshold b b.cursor).2.Steady pushed := by
  have hc := h.keeps.cursor_eq
  have h₁ := h.keeps.sent_le
  have h₂ := h.keeps.acked_le
  have h₃ := h.keeps.highest_le
  have hl := h.keeps.length_slots
  have hr := h.keeps.room
  have hn := h.near
  obtain ⟨rewound,hidle,hrest⟩ := h.keeps.rest now threshold b.cursor (by omega) (by omega)
  refine ⟨⟨rewound,hidle⟩,hrest.keeps,?_⟩
  rw [hrest.highest]
  unfold next.rest
  split
  · simp only
    omega
  · split
    · simp only
      omega
    · simp only
      omega

/-- A step on the line sends a pushed payload under its own number, or nothing. -/
theorem Steady.next (h : b.Steady pushed) (now : Nat) (minWindow : Int32) (threshold : Nat) :
    (b.next now minWindow threshold).2.Steady pushed ∧
      ∀ fragment payload, (b.next now minWindow threshold).1 = .transmit fragment payload →
        1 ≤ fragment.toInt ∧ pushed[fragment.toInt.toNat - 1]? = some payload := by
  have hc := h.keeps.cursor_eq
  have ha := h.keeps.acked
  by_cases hopen : minWindow ≤ b.window ∧ b.cursor.toInt.toNat < pushed.length
  · obtain ⟨hw,hlt⟩ := hopen
    rw [h.keeps.next_of_lt now threshold hw hlt]
    have hsucc := h.keeps.cursor_succ (by omega)
    refine ⟨⟨(h.keeps.transmitted (by omega)).1,?_⟩,?_⟩
    · have hn := h.near
      simp only [Outbox.transmitted]
      split <;> omega
    · intro fragment payload he
      obtain ⟨rfl,rfl⟩ := Action.transmit.inj he
      refine ⟨by omega,?_⟩
      rw [hsucc,show (b.cursor.toInt + 1).toNat - 1 = b.cursor.toInt.toNat by omega]
      exact List.getElem?_eq_getElem hlt
  · obtain ⟨⟨rewound,hidle⟩,hsteady⟩ := h.rest now threshold
    rw [h.keeps.next_of_rest now threshold hopen,hidle]
    exact ⟨hsteady,fun _ _ he => by cases he⟩

structure Ordered (pushed : List Bytes) (log : Log) : Prop where
  numbers_eq : numbers log =
    (List.range' (pushed.length + 1) (payloads log).length).map Int32.ofNat
  sent_pushed : ∀ fragment payload, (fragment,payload) ∈ sent log →
    1 ≤ fragment.toInt ∧ (pushed ++ payloads log)[fragment.toInt.toNat - 1]? = some payload

theorem ordered_nil (pushed : List Bytes) : Ordered pushed [] := ⟨rfl,by simp [sent]⟩

theorem Ordered.append {log more : Log} (h : Ordered pushed log)
    (hmore : Ordered (pushed ++ payloads log) more) : Ordered pushed (log ++ more) where
  numbers_eq := by
    rw [numbers_append,payloads_append,h.numbers_eq,hmore.numbers_eq,← List.map_append,
      List.length_append,List.length_append,Nat.add_right_comm,List.range'_append_1]
  sent_pushed := by
    intro fragment payload he
    rw [payloads_append,← List.append_assoc]
    rw [sent_append,List.mem_append] at he
    rcases he with he | he
    · obtain ⟨hone,hat⟩ := h.sent_pushed fragment payload he
      exact ⟨hone,by
        rw [List.getElem?_append_left (List.getElem?_eq_some_iff.mp hat).1,hat]⟩
    · exact hmore.sent_pushed fragment payload he

theorem Steady.serves (h : b.Steady pushed) (q : Request)
    (hfew : (pushed ++ payloads (b.serve q).2).length < fragmentLimit) :
    (b.serve q).1.Steady (pushed ++ payloads (b.serve q).2) ∧ Ordered pushed (b.serve q).2 := by
  cases q with
  | push payload =>
    by_cases hroom : pushed.length < b.lastAcked.toInt + ringCapacity
    · have hshort : (pushed ++ [payload]).length < fragmentLimit := by
        have hopen : b.full = false := by
          have hl := h.keeps.length_slots
          rw [full_eq_false_iff]
          omega
        simpa [Outbox.serve,push,hopen,payloads] using hfew
      obtain ⟨hpush,hsteady⟩ := h.push_of_room payload hroom hshort
      simp only [Outbox.serve,hpush]
      exact ⟨by simpa [payloads] using hsteady,by simp [payloads,numbers],by simp [sent]⟩
    · have hl := h.keeps.length_slots
      have hr := h.keeps.room
      simp only [Outbox.serve,h.push_of_full payload (by omega)]
      exact ⟨by simpa [payloads] using h,by simp [payloads,numbers],by simp [sent]⟩
  | acknowledge fragment window now =>
    have hsteady := h.acknowledge fragment window now
    exact ⟨by simpa [Outbox.serve,payloads] using hsteady,
      by simp [Outbox.serve,payloads,numbers],by simp [Outbox.serve,sent]⟩
  | establish window now =>
    simp only [Outbox.serve,establish_of_established h.keeps.established]
    exact ⟨by simpa [payloads] using h,by simp [payloads,numbers],by simp [sent]⟩
  | next now minWindow threshold =>
    obtain ⟨hsteady,hsent⟩ := h.next now minWindow threshold
    refine ⟨by simpa [Outbox.serve,payloads] using hsteady,
      by simp [Outbox.serve,payloads,numbers],?_⟩
    intro fragment payload he
    have haction : (b.next now minWindow threshold).1 = .transmit fragment payload := by
      rcases ha : (b.next now minWindow threshold).1 with ⟨k,p⟩ | rewound
      · simp only [Outbox.serve,ha,sent,List.filterMap_cons,List.filterMap_nil,
          List.mem_singleton,Prod.mk.injEq] at he
        rw [he.1,he.2]
      · simp [Outbox.serve,ha,sent] at he
    simpa [Outbox.serve,payloads] using hsent fragment payload haction

theorem Steady.runs (h : b.Steady pushed) (requests : List Request)
    (hfew : (pushed ++ payloads (chain serve b requests).2).length < fragmentLimit) :
    (chain Outbox.serve b requests).1.Steady (pushed ++ payloads (chain serve b requests).2) ∧
      Ordered pushed (chain serve b requests).2 := by
  induction requests generalizing b pushed with
  | nil => exact ⟨by simpa [payloads] using h,ordered_nil pushed⟩
  | cons q requests ih =>
    rw [chain_cons,payloads_append,← List.append_assoc] at hfew
    obtain ⟨hsteady,hfirst⟩ := h.serves q (by
      rw [List.length_append] at hfew
      omega)
    obtain ⟨hlater,hrest⟩ := ih hsteady hfew
    rw [chain_cons,payloads_append,← List.append_assoc]
    exact ⟨hlater,hfirst.append hrest⟩

/-- What the log of an outbox since its handshake says about the outbox. -/
structure Agrees (b : Outbox) (log : Log) : Prop where
  ring : b.slots.length ≤ 10
  slots : b.slots = (payloads log).drop b.lastAcked.toInt.toNat
  acked : 0 ≤ b.lastAcked.toInt
  acked_le : b.lastAcked.toInt ≤ b.highestSent.toInt
  unacked_le : b.highestSent.toInt - b.lastAcked.toInt ≤ b.slots.length
  sent_le : b.lastSent.toInt ≤ b.highestSent.toInt
  near : b.highestSent.toInt ≤ b.lastSent.toInt + 10
  numbers : numbers log = (List.range' 1 (payloads log).length).map Int32.ofNat
  sent : ∀ fragment payload, (fragment,payload) ∈ sent log →
    1 ≤ fragment.toInt ∧ (payloads log)[fragment.toInt.toNat - 1]? = some payload
  refuses : ∀ payload, b.push payload = none ↔
    ((payloads log).length : Int) - b.lastAcked.toInt = 10
  acknowledges : ∀ fragment window now, b.lastAcked.toInt ≤ fragment.toInt →
    fragment.toInt ≤ b.highestSent.toInt →
    ((b.acknowledge fragment window now).1 : Int) = fragment.toInt - b.lastAcked.toInt ∧
      (b.acknowledge fragment window now).2.lastAcked = fragment ∧
      (b.acknowledge fragment window now).2.slots =
        b.slots.drop (b.acknowledge fragment window now).1
  ignores : ∀ fragment window now,
    fragment.toInt < b.lastAcked.toInt ∨ b.highestSent.toInt < fragment.toInt →
    b.acknowledge fragment window now = (0,b)

theorem Steady.agrees {log : Log} (h : b.Steady (payloads log)) (ho : Ordered [] log) :
    b.Agrees log where
  ring := h.keeps.room
  slots := h.keeps.slots
  acked := h.keeps.acked
  acked_le := h.keeps.acked_le
  unacked_le := by
    have hl := h.keeps.length_slots
    have hh := h.keeps.highest_le
    omega
  sent_le := h.keeps.sent_le
  near := h.near
  numbers := by simpa using ho.numbers_eq
  sent := by simpa using ho.sent_pushed
  refuses := h.push_eq_none_iff
  acknowledges := by
    intro fragment window now hl hu
    rw [h.keeps.acknowledge_of_within window now hl hu]
    exact ⟨by simp only; omega,rfl,rfl⟩
  ignores := fun fragment window now => h.keeps.acknowledge_of_outside window now

/-- A new outbox takes its first handshake, and after that, whatever is asked of it in whatever
order, payloads are numbered as they were accepted. -/
theorem request_numbering (made opened : Nat) (window : Int32) :
    ∃ b, (start made).establish window opened = some b ∧
      ∀ requests, (payloads (chain serve b requests).2).length < fragmentLimit →
        (chain serve b requests).1.Agrees (chain serve b requests).2 := by
  obtain ⟨b,hopen,hkeeps,-,-,hhighest⟩ := (untouched_start made).establish window opened
  have hnear : b.highestSent.toInt ≤ b.lastSent.toInt + ringCapacity := by
    have hs := hkeeps.sent
    have hz := Int32.toInt_zero
    rw [hhighest]
    omega
  refine ⟨b,hopen,fun requests hfew => ?_⟩
  obtain ⟨hsteady,hordered⟩ := Steady.runs ⟨hkeeps,hnear⟩ requests (by simpa using hfew)
  exact hsteady.agrees hordered

/-- Three payloads: an acknowledgement of what was never sent counts for nothing, the cursor goes
back when nothing more is heard, and the acknowledgement of the second overtakes it. -/
def overtaking : List Request :=
  [.push [97],.push [98],.next 0 1 5,.next 0 1 5,.acknowledge 1 8 0,.push [99],.acknowledge 3 9 1,
    .next 1 1 0,.next 9 9 5,.establish 64 9,.acknowledge 2 8 9,.next 9 1 5]

theorem request_numbering_overtaking :
    ∃ b, (start 0).establish 8 0 = some b ∧
      (payloads (chain serve b overtaking).2).length < fragmentLimit ∧
      (chain serve b overtaking).1.Agrees (chain serve b overtaking).2 ∧
      payloads (chain serve b overtaking).2 = [[97],[98],[99]] ∧
      sent (chain serve b overtaking).2 = [(1,[97]),(2,[98]),(3,[99]),(3,[99])] ∧
      (chain serve b overtaking).1.lastAcked = 2 := by
  obtain ⟨b,hopen,h⟩ := request_numbering 0 0 8
  obtain rfl : b = ⟨0,8,0,[],0,0⟩ := Option.some.inj (hopen.symm.trans rfl)
  exact ⟨_,rfl,by decide +kernel,h overtaking (by decide +kernel),by decide +kernel,
    by decide +kernel,by decide +kernel⟩

end Outbox
end ReliableTransport
