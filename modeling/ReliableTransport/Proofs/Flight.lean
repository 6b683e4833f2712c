import Mathlib.Algebra.Order.BigOperators.Group.List
import Mathlib.Algebra.Order.Ring.Nat
import ReliableTransport.Proofs.Wakes

/-! How much is in flight. On the circle of fragment numbers the acknowledged point, the cursor and
the highest fragment sent stay within a ring of each other (`Coherent`), whatever is asked of an
outbox, however often its numbers wrap around and however often its handshake is answered. What
each request does is then a matter of places in the ring (`Comes`). The known window is a gate
that is open or shut: through an open one goes all the ring holds, so that what is in flight is
bounded by the ring, and by the window only if that is as large (`Flies`). -/
namespace ReliableTransport
namespace Outbox

open Log Signed

variable {b c : Outbox} {log : Log} {q : Request} {reply : Reply}

def flight (b : Outbox) : Nat := (b.highestSent - b.lastAcked).toNatClampNeg

def aloft (b : Outbox) : List Bytes := b.slots.take b.flight

/-- How many bytes were sent and are not acknowledged. -/
def bytesAloft (b : Outbox) : Nat := (b.aloft.map List.length).sum

/-- The numbers of an outbox, as distances on the circle of fragment numbers. -/
structure Coherent (b : Outbox) : Prop where
  highest : b.highestSent = b.lastAcked + Int32.ofNat b.flight
  held : b.flight ≤ b.slots.length
  room : b.slots.length ≤ ringCapacity
  lag : ∃ k ≤ ringCapacity, b.highestSent = b.lastSent + Int32.ofNat k

theorem toInt_ofNat_sub {m n : Nat} (hm : m ≤ fragmentLimit) (hn : n ≤ fragmentLimit) :
    (Int32.ofNat m - Int32.ofNat n).toInt = m - n := by
  have hm' := toInt_ofNat hm
  have hn' := toInt_ofNat hn
  rw [toInt_sub_of_nonneg (by omega) (by omega),hm',hn']

theorem ring_le {n : Nat} (h : n ≤ ringCapacity) : n ≤ fragmentLimit :=
  Nat.le_trans h (by decide)

theorem toInt_ofNat_of_ring {n : Nat} (h : n ≤ ringCapacity) : (Int32.ofNat n).toInt = n :=
  toInt_ofNat (ring_le h)

theorem toNatClampNeg_ahead (x : Int32) {n : Nat} (hn : n ≤ ringCapacity) :
    (x + Int32.ofNat n - x).toNatClampNeg = n := by
  have hd : x + Int32.ofNat n - x = Int32.ofNat n := by grind
  rw [hd,toNatClampNeg_eq,toInt_ofNat_of_ring hn,Int.toNat_natCast]

theorem flight_eq {n : Nat} (hn : n ≤ ringCapacity)
    (h : b.highestSent = b.lastAcked + Int32.ofNat n) : b.flight = n := by
  rw [flight,h,toNatClampNeg_ahead _ hn]

theorem Coherent.flight_le (h : b.Coherent) : b.flight ≤ ringCapacity :=
  Nat.le_trans h.held h.room

theorem Coherent.length_aloft (h : b.Coherent) : b.aloft.length = b.flight := by
  rw [aloft,List.length_take,Nat.min_eq_left h.held]

/-- The cursor is at a place between the acknowledged point and the highest fragment sent. -/
theorem Coherent.cursor_eq (h : b.Coherent) :
    ∃ place ≤ b.flight, b.cursor = b.lastAcked + Int32.ofNat place := by
  obtain ⟨k,hk,hlag⟩ := h.lag
  have hd : (b.lastSent - b.lastAcked).toInt = b.flight - k := by
    have hsub : b.lastSent - b.lastAcked = Int32.ofNat b.flight - Int32.ofNat k := by
      have hh := h.highest
      grind
    rw [hsub,toInt_ofNat_sub (ring_le h.flight_le) (ring_le hk)]
  by_cases hahead : k ≤ b.flight
  · rw [cursor,if_neg (by rw [neg_iff,hd]; omega)]
    refine ⟨b.flight - k,Nat.sub_le _ _,?_⟩
    have hsplit : Int32.ofNat b.flight = Int32.ofNat (b.flight - k) + Int32.ofNat k := by
      rw [← Int32.ofNat_add,Nat.sub_add_cancel hahead]
    have hh := h.highest
    grind
  · rw [cursor,if_pos (by rw [neg_iff,hd]; omega)]
    exact ⟨0,Nat.zero_le _,(Int32.add_zero _).symm⟩

/-- What comes of a request, by the places in the ring. -/
inductive Comes (b : Outbox) : Request → Reply → Outbox → Prop
  | held {payload : Bytes} (free : b.slots.length < ringCapacity) :
      Comes b (.push payload) (.held (b.lastAcked + Int32.ofNat (b.slots.length + 1)))
        (b.extend [payload])
  | refused {payload : Bytes} : Comes b (.push payload) .refused b
  | late {window : Int32} {now : Nat} (up : b.established = true) :
      Comes b (.establish window now) (.opened false) b
  | opened {window : Int32} {now : Nat} (down : b.established = false) :
      Comes b (.establish window now) (.opened true) ⟨0,widen b.window window,now,b.slots,0,0⟩
  | ignored {fragment window : Int32} {now : Nat} :
      Comes b (.acknowledge fragment window now) (.released 0) b
  | acknowledged {window : Int32} {now progress count : Nat} (up : b.established = true)
      (sent : count ≤ b.flight) :
      Comes b (.acknowledge (b.lastAcked + Int32.ofNat count) window now) (.released count)
        { b with
          lastAcked := b.lastAcked + Int32.ofNat count
          window := widen b.window window
          progress
          slots := b.slots.drop count }
  | transmitted {place : Nat} {payload : Bytes} {minWindow : Int32} {now threshold : Nat}
      (wide : minWindow ≤ b.window) (near : place ≤ b.flight)
      (slot : b.slots[place]? = some payload) :
      Comes b (.next now minWindow threshold)
        (.acted (.transmit (b.lastAcked + Int32.ofNat (place + 1)) payload))
        { b with
          lastSent := b.lastAcked + Int32.ofNat (place + 1)
          highestSent := b.lastAcked + Int32.ofNat (max b.flight (place + 1)) }
  | rested {place progress : Nat} {cursor : Int32} {rewound : Bool} {minWindow : Int32}
      {now threshold : Nat} (near : place ≤ b.flight)
      (stands : cursor = b.lastAcked + Int32.ofNat place) :
      Comes b (.next now minWindow threshold) (.acted (.idle rewound))
        { b with lastSent := cursor, progress }

theorem comes_push (b : Outbox) (payload : Bytes) : ∃ reply,
    (b.serve (.push payload)).2 = [(.push payload,reply)] ∧
      Comes b (.push payload) reply (b.serve (.push payload)).1 := by
  by_cases hroom : 0 < b.room
  · have hfree : b.slots.length < ringCapacity := by
      unfold room at hroom
      omega
    rw [serve,push_of_room hroom]
    exact ⟨_,rfl,.held hfree⟩
  · have hfull : b.full = true := by
      unfold room at hroom
      rw [full,decide_eq_true_eq]
      omega
    have hpush : b.push payload = none := if_pos hfull
    rw [serve,hpush]
    exact ⟨_,rfl,.refused⟩

theorem comes_establish (b : Outbox) (window : Int32) (now : Nat) : ∃ reply,
    (b.serve (.establish window now)).2 = [(.establish window now,reply)] ∧
      Comes b (.establish window now) reply (b.serve (.establish window now)).1 := by
  cases hup : b.established with
  | true =>
    rw [serve,establish_of_established hup]
    exact ⟨_,rfl,.late hup⟩
  | false =>
    have htaken : b.establish window now = some ⟨0,widen b.window window,now,b.slots,0,0⟩ := by
      simp [establish,hup]
    rw [serve,htaken]
    exact ⟨_,rfl,.opened hup⟩

/-- An acknowledgement counts only if it is for a fragment in flight or the last acknowledged. -/
theorem Coherent.place_of_acknowledge (h : b.Coherent) {fragment : Int32}
    (hahead : ¬ fragment - b.lastAcked < 0) (hsent : ¬ fragment - b.highestSent > 0) :
    ∃ count ≤ b.flight, fragment = b.lastAcked + Int32.ofNat count := by
  rw [neg_iff] at hahead
  have hb := toInt_bounds (fragment - b.lastAcked)
  obtain ⟨count,hplace,hlimit⟩ : ∃ count : Nat,
      fragment = b.lastAcked + Int32.ofNat count ∧ count ≤ fragmentLimit := by
    refine ⟨(fragment - b.lastAcked).toNatClampNeg,?_,?_⟩
    · rw [Int32.ofNat_toNatClampNeg _ (nonneg_iff.mpr (by omega))]
      grind
    · rw [toNatClampNeg_eq]
      unfold fragmentLimit
      omega
  refine ⟨count,?_,hplace⟩
  have hd : fragment - b.highestSent = Int32.ofNat count - Int32.ofNat b.flight := by
    have hh := h.highest
    grind
  rw [hd,pos_iff,toInt_ofNat_sub hlimit (ring_le h.flight_le)] at hsent
  omega

theorem Coherent.acknowledge_of_place (h : b.Coherent) (hup : b.established = true) {count : Nat}
    (hle : count ≤ b.flight) (window : Int32) (now : Nat) : ∃ progress,
    b.acknowledge (b.lastAcked + Int32.ofNat count) window now =
      (count,{ b with
        lastAcked := b.lastAcked + Int32.ofNat count
        window := widen b.window window
        progress
        slots := b.slots.drop count }) := by
  have hring := h.flight_le
  have hc := toInt_ofNat_of_ring (Nat.le_trans hle hring)
  have hadvance : b.lastAcked + Int32.ofNat count - b.lastAcked = Int32.ofNat count := by grind
  have hbehind : b.lastAcked + Int32.ofNat count - b.highestSent =
      Int32.ofNat count - Int32.ofNat b.flight := by
    have hh := h.highest
    grind
  have hguard : ¬ ((!b.established || decide (Int32.ofNat count < 0) ||
      decide (Int32.ofNat count - Int32.ofNat b.flight > 0)) = true) := by
    simp only [hup,Bool.not_true,Bool.false_or,Bool.or_eq_true,decide_eq_true_eq,neg_iff,pos_iff,
      toInt_ofNat_sub (ring_le (Nat.le_trans hle hring)) (ring_le hring),hc]
    omega
  unfold acknowledge
  simp only [hadvance,hbehind,if_neg hguard]
  by_cases hnone : count = 0
  · subst hnone
    exact ⟨b.progress,if_pos rfl⟩
  · have hsome : ¬ Int32.ofNat count = 0 := by
      rw [eq_zero_iff]
      omega
    have hmin : min (Int32.ofNat count).toNatClampNeg b.slots.length = count := by
      have hheld := h.held
      rw [toNatClampNeg_eq,hc]
      omega
    exact ⟨now,by rw [if_neg hsome,hmin]⟩

theorem Coherent.comes_acknowledge (h : b.Coherent) (fragment window : Int32) (now : Nat) :
    Comes b (.acknowledge fragment window now) (.released (b.acknowledge fragment window now).1)
      (b.acknowledge fragment window now).2 := by
  by_cases hguard : (!b.established || decide (fragment - b.lastAcked < 0) ||
      decide (fragment - b.highestSent > 0)) = true
  · rw [acknowledge,if_pos hguard]
    exact .ignored
  · simp only [Bool.or_eq_true,Bool.not_eq_true',decide_eq_true_eq,not_or,Bool.not_eq_false]
      at hguard
    obtain ⟨⟨hup,hahead⟩,hsent⟩ := hguard
    obtain ⟨count,hle,rfl⟩ := h.place_of_acknowledge hahead hsent
    obtain ⟨progress,hack⟩ := h.acknowledge_of_place hup hle window now
    rw [hack]
    exact .acknowledged hup hle

theorem Coherent.comes_next (h : b.Coherent) (now : Nat) (minWindow : Int32) (threshold : Nat) :
    Comes b (.next now minWindow threshold) (.acted (b.next now minWindow threshold).1)
      (b.next now minWindow threshold).2 := by
  obtain ⟨place,hplace,hcursor⟩ := h.cursor_eq
  have hring := h.flight_le
  have hindex : (b.cursor - b.lastAcked).toNatClampNeg = place := by
    rw [hcursor,toNatClampNeg_ahead _ (by omega)]
  have hrest : Comes b (.next now minWindow threshold)
      (.acted (next.rest now threshold b b.cursor).1) (next.rest now threshold b b.cursor).2 := by
    obtain ⟨rewound,progress,hrest⟩ := b.rest_eq b.cursor now threshold
    rw [hrest]
    cases rewound with
    | true => exact .rested (Nat.zero_le _) (Int32.add_zero _).symm
    | false => exact .rested hplace hcursor
  unfold next
  simp only [hindex]
  split
  · rename_i payload hslot
    split
    · rename_i hwide
      have hsucc : b.cursor + 1 = b.lastAcked + Int32.ofNat (place + 1) := by
        rw [Int32.ofNat_add,hcursor]
        grind
      have hhigh : (if b.cursor + 1 - b.highestSent > 0 then b.cursor + 1 else b.highestSent) =
          b.lastAcked + Int32.ofNat (max b.flight (place + 1)) := by
        have hlt : place < b.slots.length := (List.getElem?_eq_some_iff.mp hslot).1
        have hroom := h.room
        have hd : b.cursor + 1 - b.highestSent =
            Int32.ofNat (place + 1) - Int32.ofNat b.flight := by
          have hh := h.highest
          grind
        simp only [hd,pos_iff,toInt_ofNat_sub (ring_le (show place + 1 ≤ ringCapacity by omega))
          (ring_le hring)]
        split
        · rw [Nat.max_eq_right (by omega),hsucc]
        · rw [Nat.max_eq_left (by omega),← h.highest]
      rw [hhigh,hsucc]
      exact .transmitted hwide hplace hslot
    · exact hrest
  · exact hrest

theorem Coherent.comes (h : b.Coherent) (q : Request) :
    ∃ reply, (b.serve q).2 = [(q,reply)] ∧ Comes b q reply (b.serve q).1 := by
  cases q with
  | push payload => exact b.comes_push payload
  | acknowledge fragment window now => exact ⟨_,rfl,h.comes_acknowledge fragment window now⟩
  | establish window now => exact b.comes_establish window now
  | next now minWindow threshold => exact ⟨_,rfl,h.comes_next now minWindow threshold⟩

/-- A number that is some places ahead, seen from a place on the way. -/
theorem ahead_of_place {x y : Int32} {n place : Nat} (h : y = x + Int32.ofNat n)
    (hle : place ≤ n) : y = x + Int32.ofNat place + Int32.ofNat (n - place) := by
  have hsplit : Int32.ofNat n = Int32.ofNat place + Int32.ofNat (n - place) := by
    rw [← Int32.ofNat_add,Nat.add_sub_cancel' hle]
  rw [h,hsplit]
  exact (Int32.add_assoc _ _ _).symm

theorem coherent_of_place {n : Nat} (h : b.highestSent = b.lastAcked + Int32.ofNat n)
    (hn : n ≤ b.slots.length) (hroom : b.slots.length ≤ ringCapacity)
    (hlag : ∃ k ≤ ringCapacity, b.highestSent = b.lastSent + Int32.ofNat k) :
    b.Coherent ∧ b.flight = n := by
  have hf := flight_eq (Nat.le_trans hn hroom) h
  exact ⟨⟨by rw [hf,h],by rw [hf]; exact hn,hroom,hlag⟩,hf⟩

theorem coherent_start (now : Nat) : (start now).Coherent ∧ (start now).flight = 0 :=
  coherent_of_place (Int32.add_zero _).symm (Nat.zero_le _) (Nat.zero_le _)
    ⟨0,Nat.zero_le _,(Int32.add_zero _).symm⟩

def flightAfter (b : Outbox) : Reply → Nat
  | .released count => b.flight - count
  | .opened true => 0
  | .acted (.transmit fragment _) => max b.flight (fragment - b.lastAcked).toNatClampNeg
  | _ => b.flight

theorem Comes.coherent (he : Comes b q reply c) (h : b.Coherent) :
    c.Coherent ∧ c.flight = b.flightAfter reply := by
  have hring := h.flight_le
  cases he with
  | refused | late | ignored => exact ⟨h,rfl⟩
  | held free =>
    refine coherent_of_place h.highest ?_ ?_ h.lag
    · rw [slots_extend,List.length_append]
      exact Nat.le_trans h.held (Nat.le_add_right _ _)
    · rw [slots_extend,List.length_append,List.length_singleton]
      exact free
  | opened =>
    exact coherent_of_place (Int32.add_zero _).symm (Nat.zero_le _) h.room
      ⟨0,Nat.zero_le _,(Int32.add_zero _).symm⟩
  | acknowledged up sent =>
    refine coherent_of_place (ahead_of_place h.highest sent) ?_ ?_ h.lag
    · rw [List.length_drop]
      exact Nat.sub_le_sub_right h.held _
    · rw [List.length_drop]
      exact Nat.le_trans (Nat.sub_le _ _) h.room
  | @transmitted place payload minWindow now threshold wide near slot =>
    have hlt := (List.getElem?_eq_some_iff.mp slot).1
    have hheld := h.held
    have hroom := h.room
    rw [flightAfter,toNatClampNeg_ahead _ (by omega)]
    refine coherent_of_place rfl ?_ hroom ⟨_,?_,ahead_of_place rfl (Nat.le_max_right _ _)⟩
    · simp only
      omega
    · omega
  | @rested place progress cursor rewound minWindow now threshold near stands =>
    refine coherent_of_place h.highest h.held h.room ⟨b.flight - place,by omega,?_⟩
    simp only [stands]
    exact ahead_of_place h.highest near

/-- A payload is of a size that fits a frame, and a step on the line asks for room for one. -/
def Request.Modest : Request → Prop
  | .push payload => payload.length ≤ Frame.maxPayload
  | .next _ minWindow _ => minWindow = Sender.minWindow
  | _ => True

structure Gated (b : Outbox) (log : Log) : Prop where
  coherent : b.Coherent
  nonneg : 0 ≤ b.window
  wide : 0 < b.flight → Sender.minWindow ≤ b.window
  small : ∀ payload ∈ b.slots, payload.length ≤ Frame.maxPayload
  sent : ∀ place payload, place < b.flight → b.slots[place]? = some payload →
    (b.lastAcked + Int32.ofNat (place + 1),payload) ∈ Log.sent log

theorem gated_start (made : Nat) : (start made).Gated [] where
  coherent := (coherent_start made).1
  nonneg := Int32.le_refl _
  wide := fun h => absurd h (by rw [(coherent_start made).2]; exact Nat.lt_irrefl 0)
  small := fun _ h => by cases h
  sent := fun _ _ _ h => by cases h

theorem Comes.gated (he : Comes b q reply c) (h : b.Gated log) (hq : q.Modest) :
    c.Gated (log ++ [(q,reply)]) := by
  obtain ⟨hcoherent,hflight⟩ := he.coherent h.coherent
  have hsent : ∀ e ∈ Log.sent log, e ∈ Log.sent (log ++ [(q,reply)]) := by
    intro e hm
    rw [sent_append]
    exact List.mem_append_left _ hm
  cases he with
  | refused | late | ignored | rested =>
    exact ⟨hcoherent,h.nonneg,h.wide,h.small,
      fun place payload hlt hslot => hsent _ (h.sent place payload hlt hslot)⟩
  | @held payload free =>
    refine ⟨hcoherent,h.nonneg,h.wide,?_,fun place piece hlt hslot => hsent _ ?_⟩
    · intro piece hm
      rw [slots_extend,List.mem_append,List.mem_singleton] at hm
      rcases hm with hm | rfl
      · exact h.small piece hm
      · exact hq
    · have hlt' : place < b.slots.length := Nat.lt_of_lt_of_le hlt h.coherent.held
      rw [slots_extend,List.getElem?_append_left hlt'] at hslot
      exact h.sent place piece hlt hslot
  | @opened window now down =>
    rw [flightAfter] at hflight
    exact ⟨hcoherent,Int32.le_trans h.nonneg (widen_eq _ _).1,fun hpos => by omega,h.small,
      fun place payload hlt _ => by omega⟩
  | @acknowledged window now progress count up sent =>
    rw [flightAfter] at hflight
    refine ⟨hcoherent,Int32.le_trans h.nonneg (widen_eq _ _).1,fun hpos => ?_,?_,?_⟩
    · exact Int32.le_trans (h.wide (by omega)) (widen_eq _ _).1
    · exact fun payload hm => h.small payload (List.mem_of_mem_drop hm)
    · intro place payload hlt hslot
      rw [List.getElem?_drop] at hslot
      have hnumber : b.lastAcked + Int32.ofNat count + Int32.ofNat (place + 1) =
          b.lastAcked + Int32.ofNat (count + place + 1) := by
        rw [Nat.add_assoc count,Int32.ofNat_add count,Int32.add_assoc]
      simp only [hnumber]
      exact hsent _ (h.sent (count + place) payload (by omega) hslot)
  | @transmitted place payload minWindow now threshold wide near slot =>
    refine ⟨hcoherent,h.nonneg,fun _ => hq ▸ wide,h.small,fun place' piece hlt hslot => ?_⟩
    by_cases hold : place' < b.flight
    · exact hsent _ (h.sent place' piece hold hslot)
    · have hroom := h.coherent.room
      have hplace := (List.getElem?_eq_some_iff.mp slot).1
      rw [flightAfter,toNatClampNeg_ahead _ (by omega)] at hflight
      obtain rfl : place' = place := by omega
      obtain rfl := Option.some.inj (hslot.symm.trans slot)
      rw [sent_append]
      exact List.mem_append_right _ (List.mem_singleton_self _)

/-- What every request keeps, if it is one of those that `Q` admits, holds after all of them. -/
theorem Coherent.induct {P : Outbox → Log → Prop} {Q : Request → Prop}
    (hcoherent : ∀ b log, P b log → b.Coherent)
    (hstep : ∀ b c log q reply, Comes b q reply c → P b log → Q q → P c (log ++ [(q,reply)]))
    (h : P b log) (requests : List Request) (hq : ∀ q ∈ requests, Q q) :
    P (chain serve b requests).1 (log ++ (chain serve b requests).2) := by
  induction requests generalizing b log with
  | nil => simpa using h
  | cons q requests ih =>
    obtain ⟨reply,hreply,hcomes⟩ := (hcoherent b log h).comes q
    have hlater := ih (hstep _ _ _ _ _ hcomes h (hq q List.mem_cons_self))
      fun q hm => hq q (List.mem_cons_of_mem _ hm)
    rw [chain_cons,hreply,← List.append_assoc]
    exact hlater

theorem Gated.runs (h : b.Gated log) (requests : List Request) (hq : ∀ q ∈ requests, q.Modest) :
    (chain serve b requests).1.Gated (log ++ (chain serve b requests).2) :=
  Coherent.induct (fun _ _ h => h.coherent) (fun _ _ _ _ _ he h hq => he.gated h hq) h requests hq

/-- What a log says of what is in flight. -/
structure Flies (b : Outbox) (log : Log) : Prop where
  count : b.aloft.length = b.flight
  highest : b.highestSent = b.lastAcked + Int32.ofNat b.flight
  sent : ∀ place payload, b.aloft[place]? = some payload →
    (b.lastAcked + Int32.ofNat (place + 1),payload) ∈ Log.sent log
  shut : b.window < Sender.minWindow → b.flight = 0
  few : b.flight ≤ ringCapacity
  bytes : b.bytesAloft ≤ b.flight*Frame.maxPayload
  /-- That is no more than the known window if only one fragment is in flight, or if the window is
  as large as a ring of largest payloads. -/
  within : b.flight ≤ 1 ∨ ringCapacity*Frame.maxPayload ≤ b.window.toInt →
    b.bytesAloft ≤ b.window.toInt

theorem Gated.bytesAloft_le (h : b.Gated log) : b.bytesAloft ≤ b.flight*Frame.maxPayload := by
  have hsmall : ∀ n ∈ b.aloft.map List.length, n ≤ Frame.maxPayload := by
    intro n hn
    obtain ⟨payload,hm,rfl⟩ := List.mem_map.mp hn
    exact h.small payload (List.mem_of_mem_take hm)
  have hsum := List.sum_le_card_nsmul _ _ hsmall
  rwa [List.length_map,h.coherent.length_aloft,Nat.nsmul_eq_mul] at hsum

theorem Gated.flies (h : b.Gated log) : b.Flies log where
  count := h.coherent.length_aloft
  highest := h.coherent.highest
  sent := by
    intro place payload hat
    have hlt := (List.getElem?_eq_some_iff.mp hat).1
    rw [h.coherent.length_aloft] at hlt
    rw [aloft,List.getElem?_take_of_lt hlt] at hat
    exact h.sent place payload hlt hat
  shut := by
    intro hshut
    by_contra hsome
    exact Int32.not_lt.mpr (h.wide (Nat.pos_of_ne_zero hsome)) hshut
  few := h.coherent.flight_le
  bytes := h.bytesAloft_le
  within := by
    intro hw
    have hbytes := h.bytesAloft_le
    have hfew := h.coherent.flight_le
    have hnonneg := nonneg_iff.mp h.nonneg
    rcases hw with hone | hlarge
    · by_cases hnone : b.flight = 0
      · rw [hnone] at hbytes
        omega
      · have hopen := Int32.le_iff_toInt_le.mp (h.wide (by omega))
        have hgate : Sender.minWindow.toInt = Frame.maxPayload := by decide
        have hle : b.flight*Frame.maxPayload ≤ 1*Frame.maxPayload := Nat.mul_le_mul_right _ hone
        omega
    · have hle : b.flight*Frame.maxPayload ≤ ringCapacity*Frame.maxPayload :=
        Nat.mul_le_mul_right _ hfew
      omega

theorem chain_pushes {pieces : List Bytes} (h : pieces.length ≤ b.room) :
    (chain serve b (pieces.map .push)).1 = b.extend pieces := by
  induction pieces generalizing b with
  | nil => simp
  | cons piece pieces ih =>
    rw [List.length_cons] at h
    have hrest : pieces.length ≤ (b.extend [piece]).room := by
      rw [room_extend,List.length_singleton]
      omega
    have hserve : (b.serve (.push piece)).1 = b.extend [piece] := by
      rw [serve,push_of_room (by omega)]
    rw [List.map_cons,chain_cons,hserve,ih hrest]
    simp [extend]

/-- The handshake is answered with a window, and some pieces are pushed and sent. -/
def fill (window : Int32) (pieces : List Bytes) : List Request :=
  .establish window 0 :: pieces.map .push ++
    steps Sender.minWindow (List.replicate (pieces.length + 1) (0,0))

theorem fill_modest (window : Int32) {pieces : List Bytes}
    (h : ∀ payload ∈ pieces, payload.length ≤ Frame.maxPayload) :
    ∀ q ∈ fill window pieces, q.Modest := by
  intro q hm
  rcases List.mem_append.mp hm with hm | hm
  · rcases List.mem_cons.mp hm with rfl | hm
    · exact trivial
    · obtain ⟨payload,hp,rfl⟩ := List.mem_map.mp hm
      exact h payload hp
  · obtain ⟨r,-,rfl⟩ := List.mem_map.mp hm
    exact rfl

/-- Through a window that is just open goes as much as through any other. -/
theorem fill_aloft {window : Int32} {pieces : List Bytes} (hw : Sender.minWindow ≤ window)
    (hring : pieces.length ≤ ringCapacity) :
    (chain serve (start 0) (fill window pieces)).1.window = window ∧
      (chain serve (start 0) (fill window pieces)).1.aloft = pieces := by
  have hwiden : widen 0 window = window :=
    if_pos (Int32.lt_of_lt_of_le (show 0 < Sender.minWindow by decide) hw)
  obtain ⟨b,hopen,hkeeps,-⟩ := (untouched_start 0).establish window 0
  obtain rfl : (⟨0,window,0,[],0,0⟩ : Outbox) = b := by
    rw [← hwiden]
    exact Option.some.inj (rfl.symm.trans hopen)
  have hheld : (Outbox.extend ⟨0,window,0,[],0,0⟩ pieces).Keeps pieces :=
    hkeeps.push hring (Nat.lt_of_le_of_lt hring (by decide))
  obtain ⟨c,hflush,hrest⟩ := hheld.flush_of_open 0 0 hw
  obtain ⟨-,hchain⟩ := hheld.wake_of_flush (.inl hw) 0 0
  have hcursor : (Outbox.extend ⟨0,window,0,[],0,0⟩ pieces).cursor = 0 := ite_self _
  rw [hcursor,Int32.toInt_zero,Int.toNat_zero,List.drop_zero] at hflush
  rw [hflush,length_numbered] at hchain
  have hend : (chain serve (start 0) (fill window pieces)).1 = c := by
    rw [fill,List.cons_append,chain_cons,serve,hopen,chain_append,chain_pushes hring]
    exact hchain.symm
  have hflight : c.flight = pieces.length := by
    refine flight_eq hring (Int32.toInt_inj.mp ?_)
    rw [hrest.highest,hrest.acked,lastAcked_extend,Int32.zero_add,toInt_ofNat_of_ring hring]
  rw [hend]
  refine ⟨hrest.window,?_⟩
  rw [aloft,hflight,hrest.slots]
  exact List.take_length

/-- What is in flight is bounded by the ring, whatever is asked in whatever order, and by the known
window if that is as large as the ring; for any smaller window that lets payloads out the ring can
be in flight. -/
theorem flight_along_run :
    (∀ (made : Nat) (requests : List Request), (∀ q ∈ requests, q.Modest) →
      (chain serve (start made) requests).1.Flies (chain serve (start made) requests).2) ∧
    ∀ window : Int32, Sender.minWindow ≤ window → ∃ requests : List Request,
      (∀ q ∈ requests, q.Modest) ∧ (chain serve (start 0) requests).1.window = window ∧
        (chain serve (start 0) requests).1.bytesAloft = ringCapacity*Frame.maxPayload := by
  refine ⟨fun made requests hq => ?_,fun window hw => ?_⟩
  · exact ((gated_start made).runs requests hq).flies
  · have hlen : (List.replicate ringCapacity (List.replicate Frame.maxPayload 97 : Bytes)).length ≤
        ringCapacity := Nat.le_of_eq List.length_replicate
    obtain ⟨hknown,haloft⟩ := fill_aloft hw hlen
    refine ⟨_,fill_modest window fun payload hp => ?_,hknown,?_⟩
    · rw [List.eq_of_mem_replicate hp,List.length_replicate]
    · rw [bytesAloft,haloft,List.map_replicate,List.sum_replicate,List.length_replicate,
        Nat.nsmul_eq_mul]

/-- A largest payload and one more byte, sent into a window of one largest payload. -/
def squeeze : List Request :=
  [.establish Sender.minWindow 0,.push (List.replicate Frame.maxPayload 97),.push [98],
    .next 0 Sender.minWindow 0,.next 0 Sender.minWindow 0]

theorem squeeze_modest : ∀ q ∈ squeeze, q.Modest := by
  simp only [squeeze,List.forall_mem_cons,Request.Modest,List.length_replicate]
  exact ⟨trivial,Nat.le_refl _,by decide,trivial,trivial,fun _ h => by cases h⟩

theorem flight_along_run_squeeze :
    (chain serve (start 0) squeeze).1.Flies (chain serve (start 0) squeeze).2 ∧
      (∃ requests : List Request, (∀ q ∈ requests, q.Modest) ∧
        (chain serve (start 0) requests).1.window = Sender.minWindow ∧
        (chain serve (start 0) requests).1.bytesAloft = ringCapacity*Frame.maxPayload) :=
  ⟨flight_along_run.1 0 squeeze squeeze_modest,flight_along_run.2 _ (Int32.le_refl _)⟩

/-- The known window does not bound what is in flight. -/
theorem window_overrun :
    (∀ q ∈ squeeze, q.Modest) ∧ (chain serve (start 0) squeeze).1.window.toInt = 1452 ∧
      (chain serve (start 0) squeeze).1.bytesAloft = 1453 :=
  ⟨squeeze_modest,by decide +kernel,by decide +kernel⟩

end Outbox
end ReliableTransport
