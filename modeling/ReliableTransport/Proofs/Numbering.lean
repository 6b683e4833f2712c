import ReliableTransport.Proofs.Signed
import ReliableTransport.Sender.Engine

/-! Which payload stands where in an outbox. After the handshake the `n`-th payload pushed is
fragment `n`: the slots are what was pushed less what is acknowledged (`Keeps`), every operation
leaves it so, and what a flush sends are the pushed payloads after the cursor, each under its own
number (`flush_of_open`). -/
namespace ReliableTransport
namespace Outbox

open Signed

variable {b c : Outbox} {pushed : List Bytes}

/-- An outbox whose handshake has been answered and on which `pushed` have been pushed since. -/
structure Keeps (b : Outbox) (pushed : List Bytes) : Prop where
  acked : 0 ≤ b.lastAcked.toInt
  sent : 0 ≤ b.lastSent.toInt
  sent_le : b.lastSent.toInt ≤ b.highestSent.toInt
  acked_le : b.lastAcked.toInt ≤ b.highestSent.toInt
  highest_le : b.highestSent.toInt ≤ pushed.length
  slots : b.slots = pushed.drop b.lastAcked.toInt.toNat
  room : b.slots.length ≤ ringCapacity
  few : pushed.length < fragmentLimit

structure Untouched (b : Outbox) : Prop where
  acked : b.lastAcked = -1
  window : b.window = 0
  slots : b.slots = []
  highest : b.highestSent = -1

theorem untouched_start (now : Nat) : (start now).Untouched := ⟨rfl,rfl,rfl,rfl⟩

theorem established_eq_true_iff : b.established = true ↔ 0 ≤ b.lastAcked.toInt := by
  rw [established,decide_eq_true_eq,nonneg_iff]

theorem Keeps.established (h : b.Keeps pushed) : b.established = true :=
  established_eq_true_iff.mpr h.acked

theorem Untouched.not_established (h : b.Untouched) : b.established = false := by
  rw [Outbox.established,h.acked]
  decide

theorem Keeps.acked_le_length (h : b.Keeps pushed) : b.lastAcked.toInt ≤ pushed.length := by
  have h₁ := h.acked_le
  have h₂ := h.highest_le
  omega

theorem Keeps.length_slots (h : b.Keeps pushed) :
    (b.slots.length : Int) = pushed.length - b.lastAcked.toInt := by
  have h₁ := h.acked
  have h₂ := h.acked_le_length
  rw [h.slots,List.length_drop]
  omega

theorem Keeps.drained_iff (h : b.Keeps pushed) :
    b.drained = true ↔ b.lastAcked.toInt = pushed.length := by
  have hl := h.length_slots
  rw [drained,List.isEmpty_iff,← List.length_eq_zero_iff]
  omega

theorem Keeps.acked_iff (h : b.Keeps pushed) {fragment : Int32} (hf : 0 ≤ fragment.toInt) :
    b.acked fragment = true ↔ fragment.toInt ≤ b.lastAcked.toInt := by
  rw [Outbox.acked,h.established,Bool.true_and,decide_eq_true_eq,nonpos_iff,
    toInt_sub_of_nonneg hf h.acked]
  omega

theorem widen_eq (known heard : Int32) : known ≤ widen known heard ∧ heard ≤ widen known heard := by
  unfold widen
  split
  · rename_i hlt
    exact ⟨Int32.le_of_lt hlt,Int32.le_refl _⟩
  · rename_i hlt
    exact ⟨Int32.le_refl _,Int32.not_lt.mp hlt⟩

theorem establish_of_established (h : b.established = true) (window : Int32) (now : Nat) :
    b.establish window now = none := by
  rw [establish,if_pos h]

theorem not_established_of_establish {window : Int32} {now : Nat}
    (h : b.establish window now = some c) : b.established = false :=
  Bool.eq_false_iff.mpr fun he => by
    rw [establish_of_established he] at h
    cases h

theorem Untouched.establish (h : b.Untouched) (window : Int32) (now : Nat) :
    ∃ c, b.establish window now = some c ∧ c.Keeps [] ∧ window ≤ c.window ∧ c.lastAcked = 0 ∧
      c.highestSent = 0 := by
  have hn : ¬ b.established = true := by simp [h.not_established]
  have hz := Int32.toInt_zero
  refine ⟨_,if_neg hn,?_,(widen_eq _ _).2,rfl,rfl⟩
  exact {
    acked := by simp only; omega
    sent := by simp only; omega
    sent_le := Int.le_refl _
    acked_le := Int.le_refl _
    highest_le := by simp only [List.length_nil]; omega
    slots := by simp only [h.slots,List.drop_nil]
    room := by simp [h.slots]
    few := by simp [fragmentLimit] }

theorem full_eq_false_iff : b.full = false ↔ b.slots.length < ringCapacity := by
  simp [full]

/-- How many more payloads can be pushed. -/
def room (b : Outbox) : Nat := ringCapacity - b.slots.length

def extend (b : Outbox) (pieces : List Bytes) : Outbox := { b with slots := b.slots ++ pieces }

/-- The number of the last payload pushed by a call, before and after it has pushed `pieces`. -/
def lastOf (b : Outbox) (last : Int32) (pieces : List Bytes) : Int32 :=
  if pieces = [] then last else b.lastAcked + Int32.ofNat (b.slots.length + pieces.length)

@[simp] theorem extend_nil (b : Outbox) : b.extend [] = b := by simp [extend]

@[simp] theorem slots_extend (b : Outbox) (pieces : List Bytes) :
    (b.extend pieces).slots = b.slots ++ pieces := rfl

@[simp] theorem lastAcked_extend (b : Outbox) (pieces : List Bytes) :
    (b.extend pieces).lastAcked = b.lastAcked := rfl

@[simp] theorem highestSent_extend (b : Outbox) (pieces : List Bytes) :
    (b.extend pieces).highestSent = b.highestSent := rfl

@[simp] theorem established_extend (b : Outbox) (pieces : List Bytes) :
    (b.extend pieces).established = b.established := rfl

@[simp] theorem acked_extend (b : Outbox) (pieces : List Bytes) (fragment : Int32) :
    (b.extend pieces).acked fragment = b.acked fragment := rfl

@[simp] theorem lastOf_nil (b : Outbox) (last : Int32) : b.lastOf last [] = last := rfl

theorem length_take_room (b : Outbox) (pieces : List Bytes) :
    (pieces.take b.room).length ≤ b.room := by
  rw [List.length_take]
  omega

theorem push_of_room (h : 0 < b.room) (piece : Bytes) :
    b.push piece = some (b.lastAcked + Int32.ofNat (b.slots.length + 1),b.extend [piece]) := by
  have hf : ¬ b.full = true := by
    have hlt : b.slots.length < ringCapacity := by
      unfold room at h
      omega
    simpa [full] using hlt
  simp [Outbox.push,hf,extend]

theorem room_extend (b : Outbox) (pieces : List Bytes) :
    (b.extend pieces).room = b.room - pieces.length := by
  simp only [room,slots_extend,List.length_append]
  omega

theorem lastOf_cons (b : Outbox) (last : Int32) (piece : Bytes) (pieces : List Bytes) :
    b.lastOf last (piece :: pieces) =
      (b.extend [piece]).lastOf (b.lastAcked + Int32.ofNat (b.slots.length + 1)) pieces := by
  simp only [lastOf,lastAcked_extend,slots_extend,List.length_append,List.length_cons,
    List.length_nil,Nat.zero_add,reduceCtorEq,if_false]
  split
  · rename_i hnil
    simp [hnil]
  · rw [Nat.add_assoc,Nat.add_comm 1]

/-- A try of a call to send pushes as many pieces as there is room for. -/
theorem hold_eq (b : Outbox) (last : Int32) (pieces : List Bytes) :
    Sender.hold b last pieces =
      (pieces.drop b.room,b.lastOf last (pieces.take b.room),b.extend (pieces.take b.room)) := by
  induction pieces generalizing b last with
  | nil => simp [Sender.hold]
  | cons piece pieces ih =>
    cases hr : b.room with
    | zero =>
      have hf : b.full = true := by
        unfold room at hr
        rw [full,decide_eq_true_eq]
        omega
      simp [Sender.hold,push,hf]
    | succ room =>
      have hrest : (b.extend [piece]).room = room := by
        rw [room_extend,hr,List.length_singleton]
        rfl
      simp only [Sender.hold,push_of_room (show 0 < b.room by omega),ih,hrest,List.take_succ_cons,
        List.drop_succ_cons,lastOf_cons]
      simp [extend]

/-- Pieces under the numbers they are pushed under, as far as there is room for them. -/
def stamps (b : Outbox) : List Bytes → List (Int32 × Bytes)
  | [] => []
  | piece :: pieces =>
    match b.push piece with
    | none => []
    | some (fragment,b) => (fragment,piece) :: stamps b pieces

theorem stamps_cons (h : 0 < b.room) (piece : Bytes) (pieces : List Bytes) :
    b.stamps (piece :: pieces) = (b.lastAcked + Int32.ofNat (b.slots.length + 1),piece) ::
      (b.extend [piece]).stamps pieces := by
  rw [stamps,push_of_room h]

theorem map_snd_stamps {pieces : List Bytes} (h : pieces.length ≤ b.room) :
    (b.stamps pieces).map (·.2) = pieces := by
  induction pieces generalizing b with
  | nil => rfl
  | cons piece pieces ih =>
    rw [List.length_cons] at h
    have hrest : pieces.length ≤ (b.extend [piece]).room := by
      rw [room_extend,List.length_singleton]
      omega
    rw [stamps_cons (by omega),List.map_cons,ih hrest]

theorem Keeps.push (h : b.Keeps pushed) {pieces : List Bytes} (hroom : pieces.length ≤ b.room)
    (hfew : (pushed ++ pieces).length < fragmentLimit) :
    (b.extend pieces).Keeps (pushed ++ pieces) := by
  have h₁ := h.acked_le_length
  have h₂ := h.highest_le
  exact {
    acked := h.acked
    sent := h.sent
    sent_le := h.sent_le
    acked_le := h.acked_le
    highest_le := by
      rw [highestSent_extend,List.length_append]
      push_cast
      omega
    slots := by
      rw [slots_extend,h.slots,lastAcked_extend,List.drop_append_of_le_length (by omega)]
    room := by
      have hb := h.room
      unfold Outbox.room at hroom
      rw [slots_extend,List.length_append]
      omega
    few := hfew }

theorem Keeps.lastOf_eq (h : b.Keeps pushed) (last : Int32) {pieces : List Bytes}
    (hne : pieces ≠ []) (hfew : (pushed ++ pieces).length < fragmentLimit) :
    (b.lastOf last pieces).toInt = (pushed ++ pieces).length := by
  have hl := h.length_slots
  have ha := h.acked
  have hn : (Int32.ofNat (b.slots.length + pieces.length)).toInt =
      (b.slots.length + pieces.length : Nat) := by
    apply toInt_ofNat
    rw [List.length_append] at hfew
    omega
  rw [List.length_append] at hfew ⊢
  unfold fragmentLimit at hfew
  rw [lastOf,if_neg hne,Int32.toInt_add,hn]
  have hsum : b.lastAcked.toInt + (b.slots.length + pieces.length : Nat) =
      (pushed.length + pieces.length : Nat) := by
    push_cast
    omega
  rw [hsum]
  exact Int.bmod_eq_of_le (by omega) (by omega)

theorem Keeps.next_number (h : b.Keeps pushed) {piece : Bytes}
    (hfew : (pushed ++ [piece]).length < fragmentLimit) :
    b.lastAcked + Int32.ofNat (b.slots.length + 1) = Int32.ofNat (pushed.length + 1) := by
  have hlast := h.lastOf_eq 0 (List.cons_ne_nil piece []) hfew
  rw [lastOf,if_neg (List.cons_ne_nil piece []),List.length_singleton] at hlast
  rw [List.length_append,List.length_singleton] at hlast hfew
  apply Int32.toInt_inj.mp
  rw [hlast,toInt_ofNat (by omega)]

theorem Keeps.acknowledge_of_within (h : b.Keeps pushed) {fragment : Int32} (window : Int32)
    (now : Nat) (hl : b.lastAcked.toInt ≤ fragment.toInt)
    (hu : fragment.toInt ≤ b.highestSent.toInt) :
    b.acknowledge fragment window now =
      ((fragment.toInt - b.lastAcked.toInt).toNat,
        { b with
          lastAcked := fragment
          window := widen b.window window
          progress := if fragment = b.lastAcked then b.progress else now
          slots := b.slots.drop (fragment.toInt - b.lastAcked.toInt).toNat }) := by
  have ha := h.acked
  have hf : 0 ≤ fragment.toInt := by omega
  have hh : 0 ≤ b.highestSent.toInt := by omega
  have hd := toInt_sub_of_nonneg hf ha
  have hlen := h.length_slots
  have hhi := h.highest_le
  have hguard : ¬ ((!b.established || decide (fragment - b.lastAcked < 0) ||
      decide (fragment - b.highestSent > 0)) = true) := by
    simp only [h.established,Bool.not_true,Bool.false_or,Bool.or_eq_true,decide_eq_true_eq,neg_iff,
      pos_iff,hd,toInt_sub_of_nonneg hf hh]
    omega
  unfold acknowledge
  rw [if_neg hguard]
  by_cases he : fragment = b.lastAcked
  · subst he
    simp
  · have hne : ¬ fragment - b.lastAcked = 0 := by
      rw [eq_zero_iff,hd]
      intro hz
      exact he (Int32.toInt_inj.mp (by omega))
    simp only [if_neg hne,toNatClampNeg_eq,hd,if_neg he]
    rw [Nat.min_eq_left (by omega)]

theorem Keeps.acknowledge_of_outside (h : b.Keeps pushed) {fragment : Int32} (window : Int32)
    (now : Nat) (ho : fragment.toInt < b.lastAcked.toInt ∨ b.highestSent.toInt < fragment.toInt) :
    b.acknowledge fragment window now = (0,b) := by
  have ha := h.acked
  have hal := h.acked_le
  have hguard : (!b.established || decide (fragment - b.lastAcked < 0) ||
      decide (fragment - b.highestSent > 0)) = true := by
    simp only [h.established,Bool.not_true,Bool.false_or,Bool.or_eq_true,decide_eq_true_eq]
    by_cases hf : 0 ≤ fragment.toInt
    · simp only [neg_iff,pos_iff,toInt_sub_of_nonneg hf ha,toInt_sub_of_nonneg hf
        (show 0 ≤ b.highestSent.toInt by omega)]
      omega
    · exact outside_of_neg (by omega) ha hal
  unfold acknowledge
  rw [if_pos hguard]

theorem acknowledge_of_not_established (h : b.established = false) (fragment window : Int32)
    (now : Nat) : b.acknowledge fragment window now = (0,b) := by
  simp [acknowledge,h]

theorem Keeps.acknowledge (h : b.Keeps pushed) (fragment window : Int32) (now : Nat) :
    (b.acknowledge fragment window now).2.Keeps pushed := by
  by_cases hw : b.lastAcked.toInt ≤ fragment.toInt ∧ fragment.toInt ≤ b.highestSent.toInt
  · have ha := h.acked
    rw [h.acknowledge_of_within window now hw.1 hw.2]
    exact {
      acked := by simp only; omega
      sent := h.sent
      sent_le := h.sent_le
      acked_le := hw.2
      highest_le := h.highest_le
      slots := by
        simp only [h.slots,List.drop_drop]
        congr 1
        omega
      room := by
        have hr := h.room
        simp only [List.length_drop]
        omega
      few := h.few }
  · rw [h.acknowledge_of_outside window now (by omega)]
    exact h

theorem Keeps.acknowledge_bounds (h : b.Keeps pushed) (fragment window : Int32) (now : Nat) :
    (b.acknowledge fragment window now).2.highestSent = b.highestSent ∧
      b.lastAcked.toInt ≤ (b.acknowledge fragment window now).2.lastAcked.toInt := by
  by_cases hw : b.lastAcked.toInt ≤ fragment.toInt ∧ fragment.toInt ≤ b.highestSent.toInt
  · rw [h.acknowledge_of_within window now hw.1 hw.2]
    exact ⟨rfl,hw.1⟩
  · rw [h.acknowledge_of_outside window now (by omega)]
    exact ⟨rfl,Int.le_refl _⟩

theorem Keeps.lastSent_acknowledge (h : b.Keeps pushed) (fragment window : Int32) (now : Nat) :
    (b.acknowledge fragment window now).2.lastSent = b.lastSent := by
  by_cases hw : b.lastAcked.toInt ≤ fragment.toInt ∧ fragment.toInt ≤ b.highestSent.toInt
  · rw [h.acknowledge_of_within window now hw.1 hw.2]
  · rw [h.acknowledge_of_outside window now (by omega)]

theorem Keeps.cursor_eq (h : b.Keeps pushed) :
    b.cursor.toInt = max b.lastSent.toInt b.lastAcked.toInt := by
  have hd := toInt_sub_of_nonneg h.sent h.acked
  unfold cursor
  simp only [neg_iff,hd]
  split <;> omega

def numbered : Nat → List Bytes → List (Int32 × Bytes)
  | _, [] => []
  | n, piece :: pieces => (Int32.ofNat (n + 1),piece) :: numbered (n + 1) pieces

theorem mem_numbered {n : Nat} {pieces : List Bytes} {e : Int32 × Bytes}
    (h : e ∈ numbered n pieces) :
    ∃ i, pieces[i]? = some e.2 ∧ e.1 = Int32.ofNat (n + i + 1) := by
  induction pieces generalizing n with
  | nil => simp [numbered] at h
  | cons piece pieces ih =>
    rcases List.mem_cons.mp h with rfl | h
    · exact ⟨0,rfl,rfl⟩
    · obtain ⟨i,hi,he⟩ := ih h
      exact ⟨i + 1,by simpa using hi,by rw [he]; congr 1; omega⟩

theorem Keeps.stamps_eq (h : b.Keeps pushed) {pieces : List Bytes}
    (hroom : pieces.length ≤ b.room) (hfew : (pushed ++ pieces).length < fragmentLimit) :
    b.stamps pieces = numbered pushed.length pieces := by
  induction pieces generalizing b pushed with
  | nil => rfl
  | cons piece pieces ih =>
    rw [List.length_cons] at hroom
    have happend : pushed ++ piece :: pieces = (pushed ++ [piece]) ++ pieces := by simp
    rw [happend] at hfew
    have hone : (pushed ++ [piece]).length < fragmentLimit := by
      rw [List.length_append] at hfew
      omega
    have hkeeps : (b.extend [piece]).Keeps (pushed ++ [piece]) :=
      h.push (by rw [List.length_singleton]; omega) hone
    have hrest : pieces.length ≤ (b.extend [piece]).room := by
      rw [room_extend,List.length_singleton]
      omega
    rw [stamps_cons (by omega),ih hkeeps hrest hfew,h.next_number hone,List.length_append,
      List.length_singleton,numbered]

/-- The outbox `c` is `b` at rest: the cursor has gone no further than `reach`, and it is back at
the acknowledged point if there was no progress for more than `threshold`. -/
structure Rests (b c : Outbox) (pushed : List Bytes) (reach : Int) (now threshold : Nat) :
    Prop where
  keeps : c.Keeps pushed
  acked : c.lastAcked = b.lastAcked
  window : c.window = b.window
  slots : c.slots = b.slots
  highest : c.highestSent.toInt = reach
  rewound : threshold < now - b.progress → c.lastSent = c.lastAcked
  progress : c.progress ≤ max b.progress now

theorem Keeps.rest (h : b.Keeps pushed) (now threshold : Nat) (cursor : Int32)
    (hl : b.lastAcked.toInt ≤ cursor.toInt) (hu : cursor.toInt ≤ b.highestSent.toInt) :
    ∃ rewound, (next.rest now threshold b cursor).1 = .idle rewound ∧
      Rests b (next.rest now threshold b cursor).2 pushed b.highestSent.toInt now threshold := by
  have ha := h.acked
  have hkeeps : ∀ (sent : Int32) (progress : Nat), b.lastAcked.toInt ≤ sent.toInt →
      sent.toInt ≤ b.highestSent.toInt →
      ({ b with lastSent := sent, progress } : Outbox).Keeps pushed := by
    intro sent progress h₁ h₂
    exact ⟨h.acked,by simp only; omega,h₂,h.acked_le,h.highest_le,h.slots,h.room,h.few⟩
  unfold next.rest
  split
  · rename_i he
    exact ⟨false,rfl,hkeeps _ _ hl hu,rfl,rfl,rfl,rfl,fun _ => he,by simp only; omega⟩
  · split
    · exact ⟨true,rfl,hkeeps _ _ (by omega) (by omega),rfl,rfl,rfl,rfl,fun _ => rfl,
        by simp only; omega⟩
    · rename_i hlate
      exact ⟨false,rfl,hkeeps _ _ hl hu,rfl,rfl,rfl,rfl,fun hl' => absurd hl' hlate,
        by simp only; omega⟩

theorem Keeps.getElem?_cursor (h : b.Keeps pushed) :
    b.slots[(b.cursor - b.lastAcked).toNatClampNeg]? = pushed[b.cursor.toInt.toNat]? := by
  have ha := h.acked
  have hc := h.cursor_eq
  rw [toNatClampNeg_eq,toInt_sub_of_nonneg (by omega) ha,h.slots,List.getElem?_drop]
  congr 1
  omega

def transmitted (b : Outbox) : Outbox := { b with
  lastSent := b.cursor + 1
  highestSent := if b.cursor + 1 - b.highestSent > 0 then b.cursor + 1 else b.highestSent }

theorem Keeps.cursor_succ (h : b.Keeps pushed) (hlt : b.cursor.toInt < pushed.length) :
    (b.cursor + 1).toInt = b.cursor.toInt + 1 := by
  have hc := h.cursor_eq
  have ha := h.acked
  have hfew := h.few
  unfold fragmentLimit at hfew
  exact toInt_succ (by omega)

theorem Keeps.cursor_succ_eq (h : b.Keeps pushed) (hlt : b.cursor.toInt.toNat < pushed.length) :
    b.cursor + 1 = Int32.ofNat (b.cursor.toInt.toNat + 1) := by
  have hc := h.cursor_eq
  have ha := h.acked
  have hfew := h.few
  apply Int32.toInt_inj.mp
  rw [h.cursor_succ (by omega),toInt_ofNat (by omega)]
  omega

theorem Keeps.highestSent_transmitted (h : b.Keeps pushed) (hlt : b.cursor.toInt < pushed.length) :
    b.transmitted.highestSent.toInt = max (b.cursor.toInt + 1) b.highestSent.toInt := by
  have hc := h.cursor_eq
  have ha := h.acked
  have h₂ := h.acked_le
  simp only [Outbox.transmitted,pos_iff,toInt_sub_of_nonneg (show 0 ≤ (b.cursor + 1).toInt by
    rw [h.cursor_succ hlt]; omega) (show 0 ≤ b.highestSent.toInt by omega),h.cursor_succ hlt]
  split
  · rw [h.cursor_succ hlt]
    omega
  · omega

theorem Keeps.transmitted (h : b.Keeps pushed) (hlt : b.cursor.toInt < pushed.length) :
    b.transmitted.Keeps pushed ∧ b.transmitted.cursor.toInt = b.cursor.toInt + 1 := by
  have hc := h.cursor_eq
  have ha := h.acked
  have hs := h.sent
  have h₂ := h.acked_le
  have h₃ := h.highest_le
  have hsent : b.transmitted.lastSent.toInt = b.cursor.toInt + 1 := h.cursor_succ hlt
  have hhigh := h.highestSent_transmitted hlt
  have hacked : b.transmitted.lastAcked = b.lastAcked := rfl
  have hkeeps : b.transmitted.Keeps pushed := by
    refine ⟨h.acked,by omega,by omega,?_,by omega,h.slots,h.room,h.few⟩
    rw [hacked]
    omega
  refine ⟨hkeeps,?_⟩
  have hc' := hkeeps.cursor_eq
  rw [hacked] at hc'
  omega

theorem Keeps.next_of_lt (h : b.Keeps pushed) (now threshold : Nat) {minWindow : Int32}
    (hw : minWindow ≤ b.window) (hlt : b.cursor.toInt.toNat < pushed.length) :
    b.next now minWindow threshold =
      (.transmit (b.cursor + 1) pushed[b.cursor.toInt.toNat],b.transmitted) := by
  have hslot := h.getElem?_cursor
  rw [List.getElem?_eq_getElem hlt] at hslot
  simp only [next,hslot,if_pos hw]
  rfl

/-- With no room in the window or nothing after the cursor the outbox rests. -/
theorem Keeps.next_of_rest (h : b.Keeps pushed) (now threshold : Nat) {minWindow : Int32}
    (hshut : ¬ (minWindow ≤ b.window ∧ b.cursor.toInt.toNat < pushed.length)) :
    b.next now minWindow threshold = next.rest now threshold b b.cursor := by
  have hslot := h.getElem?_cursor
  simp only [next,hslot]
  split
  · rename_i payload hat
    have hlt := (List.getElem?_eq_some_iff.mp hat).1
    rw [if_neg fun hw => hshut ⟨hw,hlt⟩]
  · rfl

theorem Keeps.burst_of_rest (h : b.Keeps pushed) {now threshold : Nat} {minWindow : Int32}
    (hnext : b.next now minWindow threshold = next.rest now threshold b b.cursor) (fuel : Nat) :
    ∃ c, burst now minWindow threshold (fuel + 1) b = ([],c) ∧
      Rests b c pushed b.highestSent.toInt now threshold := by
  have hc := h.cursor_eq
  have h₁ := h.sent_le
  have h₂ := h.acked_le
  obtain ⟨rewound,hidle,hrest⟩ := h.rest now threshold b.cursor (by omega) (by omega)
  refine ⟨_,?_,hrest⟩
  rw [burst,hnext]
  rcases hn : next.rest now threshold b b.cursor with ⟨action,c⟩
  rw [hn] at hidle
  simp only at hidle
  simp [hidle]

theorem Keeps.burst_of_open (h : b.Keeps pushed) (now threshold : Nat) {minWindow : Int32}
    (hw : minWindow ≤ b.window) (fuel : Nat)
    (hfuel : pushed.length - b.cursor.toInt.toNat < fuel) :
    ∃ c, burst now minWindow threshold fuel b =
        (numbered b.cursor.toInt.toNat (pushed.drop b.cursor.toInt.toNat),c) ∧
      Rests b c pushed pushed.length now threshold := by
  induction fuel generalizing b with
  | zero => omega
  | succ fuel ih =>
    have hc := h.cursor_eq
    have ha := h.acked
    by_cases hlt : b.cursor.toInt.toNat < pushed.length
    · obtain ⟨hkeeps,hcursor⟩ := h.transmitted (by omega)
      have hplace : b.transmitted.cursor.toInt.toNat = b.cursor.toInt.toNat + 1 := by omega
      obtain ⟨c,hburst,hrest⟩ := ih hkeeps hw (by omega)
      refine ⟨c,?_,?_⟩
      · rw [burst,h.next_of_lt now threshold hw hlt]
        simp only [hburst,hplace]
        rw [List.drop_eq_getElem_cons hlt,numbered,h.cursor_succ_eq hlt]
      · exact ⟨hrest.keeps,hrest.acked,hrest.window,hrest.slots,hrest.highest,hrest.rewound,
          hrest.progress⟩
    · have h₁ := h.sent_le
      have h₂ := h.acked_le
      have h₃ := h.highest_le
      have hnext : b.next now minWindow threshold = next.rest now threshold b b.cursor :=
        h.next_of_rest now threshold fun ho => hlt ho.2
      obtain ⟨c,hburst,hrest⟩ := h.burst_of_rest hnext fuel
      have hall : b.highestSent.toInt = pushed.length := by omega
      rw [hall] at hrest
      refine ⟨c,?_,hrest⟩
      rw [hburst,List.drop_eq_nil_of_le (by omega),numbered]

theorem Keeps.flush_of_open (h : b.Keeps pushed) (now threshold : Nat) {minWindow : Int32}
    (hw : minWindow ≤ b.window) :
    ∃ c, b.flush now minWindow threshold =
        (numbered b.cursor.toInt.toNat (pushed.drop b.cursor.toInt.toNat),c) ∧
      Rests b c pushed pushed.length now threshold := by
  have hl := h.length_slots
  have hc := h.cursor_eq
  have ha := h.acked
  exact h.burst_of_open now threshold hw _ (by omega)

theorem Keeps.flush_of_shut (h : b.Keeps pushed) (now threshold : Nat) {minWindow : Int32}
    (hw : ¬ minWindow ≤ b.window) :
    ∃ c, b.flush now minWindow threshold = ([],c) ∧
      Rests b c pushed b.highestSent.toInt now threshold := by
  exact h.burst_of_rest (h.next_of_rest now threshold fun ho => hw ho.1) _

/-- Whatever a flush sends was pushed under the number it is sent with, and the rest of the outbox
stays as it was. -/
theorem Keeps.flush (h : b.Keeps pushed) (now threshold : Nat) (minWindow : Int32) :
    ∃ sent c reach, b.flush now minWindow threshold = (sent,c) ∧
      Rests b c pushed reach now threshold ∧ b.highestSent.toInt ≤ reach ∧
      ∀ e ∈ sent, ∃ i : Nat, i < reach ∧ e.1 = Int32.ofNat (i + 1) ∧ pushed[i]? = some e.2 := by
  by_cases hw : minWindow ≤ b.window
  · obtain ⟨c,hflush,hrest⟩ := h.flush_of_open now threshold hw
    refine ⟨_,c,_,hflush,hrest,h.highest_le,fun e he => ?_⟩
    obtain ⟨i,hi,hn⟩ := mem_numbered he
    rw [List.getElem?_drop] at hi
    have hlt := (List.getElem?_eq_some_iff.mp hi).1
    exact ⟨b.cursor.toInt.toNat + i,by omega,hn,hi⟩
  · obtain ⟨c,hflush,hrest⟩ := h.flush_of_shut now threshold hw
    exact ⟨[],c,_,hflush,hrest,Int.le_refl _,by simp⟩

end Outbox
end ReliableTransport
