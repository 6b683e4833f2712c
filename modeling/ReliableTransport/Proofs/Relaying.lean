import ReliableTransport.Relay.Engine
import Mathlib.Data.List.Basic
import Mathlib.Data.List.Induction

/-! A relay adds nothing to its faults. What it has taken in is read off the events: a datagram of
a client is to go to the server, a datagram of the server to the client heard last before it
(`parcels`). A parcel leaves when the clock first reads the time at which it is due, in as many
copies as the faults grant it. What one event sends and leaves behind is `Tracks.step`; a run of
events only adds up its steps. -/
namespace ReliableTransport

namespace Rate

def decides : Rate → Bool
  | sometimes _ => false
  | _ => true

theorem happens_of_decides {rate : Rate} (h : rate.decides) (draw : UInt64) :
    rate.happens draw = decide (rate = .always) := by
  cases rate with
  | never => rfl
  | always => rfl
  | sometimes odds => cases h

theorem ofFloat_of_not_pos {p : Float} (h : ¬p > 0) : ofFloat p = .never := by
  simp [ofFloat,h]

theorem ofFloat_of_one_le {p : Float} (hpos : p > 0) (h : p ≥ 1) : ofFloat p = .always := by
  simp [ofFloat,hpos,h]

end Rate

/-- Every fault happens to each datagram or to none. -/
def Fault.Rates.decided (rates : Fault.Rates) : Bool :=
  rates.loss.decides && rates.duplicate.decides && rates.corrupt.decides && rates.delayed.decides

namespace Relay

def heard (es : List Event) : Option Address :=
  (es.filterMap fun
    | .fromClient source _ _ => some source
    | _ => none).getLast?

def clock (es : List Event) : Nat :=
  ((es.filterMap fun
    | .advance now => some now
    | _ => none).getLast?).getD 0

/-- A datagram to be carried: how many events came before it, when it came and where it goes. -/
structure Parcel where
  place : Nat
  arrival : Nat
  dest : Destination
  datagram : Bytes
  draws : Fault.Draws
  deriving DecidableEq

def Event.brings (before : List Event) : Event → Option Parcel
  | .fromClient _ datagram draws =>
    some ⟨before.length,clock before,.server,datagram,draws⟩
  | .fromServer datagram draws =>
    (heard before).map fun addr => ⟨before.length,clock before,.client addr,datagram,draws⟩
  | .advance _ => none

/-- All that was to be carried, in the order in which it came. -/
def parcels (es : List Event) : List Parcel :=
  (List.range es.length).filterMap fun i => es[i]?.bind fun e => e.brings (es.take i)

namespace Parcel

variable (rates : Fault.Rates)

def lost (p : Parcel) : Bool := rates.loss.happens p.draws.loss

def count (p : Parcel) : Nat :=
  if p.lost rates then 0 else if rates.duplicate.happens p.draws.duplicate then 2 else 1

def content (p : Parcel) : Bytes :=
  if !p.datagram.isEmpty && rates.corrupt.happens p.draws.corrupt then
    Fault.flip p.datagram p.draws.byte p.draws.bit
  else p.datagram

def due (p : Parcel) : Nat :=
  p.arrival + if rates.delayed.happens p.draws.delayed then rates.delay.nanos else 0

def outputs (p : Parcel) : List Output := copies (p.count rates) p.dest (p.content rates)

/-- The parcel while it is held back. -/
def held (p : Parcel) : Held := ⟨p.due rates,p.dest,p.content rates,p.count rates⟩

/-- Since it came the clock has not read the time at which it is due. -/
def waits (es : List Event) (p : Parcel) : Bool :=
  (List.range (es.length + 1)).all fun k => k ≤ p.place || clock (es.take k) < p.due rates

def leaves (before : List Event) (e : Event) (p : Parcel) : Bool :=
  p.waits rates before && p.due rates ≤ clock (before ++ [e])

end Parcel

def sends (rates : Fault.Rates) (before : List Event) (e : Event) : List Output :=
  ((parcels (before ++ [e])).filter (·.leaves rates before e)).flatMap (·.outputs rates)

section

variable {rates : Fault.Rates} {es : List Event} {e : Event} {p : Parcel}

theorem heard_concat (es : List Event) (e : Event) :
    heard (es ++ [e]) = match e with
      | .fromClient source _ _ => some source
      | _ => heard es := by
  cases e <;> simp [heard]

theorem clock_concat (es : List Event) (e : Event) :
    clock (es ++ [e]) = match e with
      | .advance now => now
      | _ => clock es := by
  cases e <;> simp [clock]

theorem clock_of_brings (h : e.brings es = some p) : clock (es ++ [e]) = clock es := by
  rw [clock_concat]
  cases e with
  | fromClient => rfl
  | fromServer => rfl
  | advance => cases h

theorem parcels_concat (es : List Event) (e : Event) :
    parcels (es ++ [e]) = parcels es ++ (e.brings es).toList := by
  have hold : ∀ i ∈ List.range es.length,
      ((es ++ [e])[i]?.bind fun e' => e'.brings ((es ++ [e]).take i)) =
        es[i]?.bind fun e' => e'.brings (es.take i) := by
    intro i hi
    have hlt := List.mem_range.mp hi
    rw [List.getElem?_append_left hlt,List.take_append_of_le_length (Nat.le_of_lt hlt)]
  unfold parcels
  rw [List.length_append,List.length_singleton,List.range_succ,List.filterMap_append,
    List.filterMap_congr hold]
  cases h : e.brings es <;> simp [h]

theorem Event.place_of_brings (h : e.brings es = some p) :
    p.place = es.length ∧ p.arrival = clock es := by
  cases e with
  | fromClient =>
    cases h
    exact ⟨rfl,rfl⟩
  | fromServer =>
    obtain ⟨addr,-,rfl⟩ := Option.map_eq_some_iff.mp h
    exact ⟨rfl,rfl⟩
  | advance => cases h

theorem place_lt (h : p ∈ parcels es) : p.place < es.length := by
  obtain ⟨i,hi,hp⟩ := List.mem_filterMap.mp h
  obtain ⟨e,-,he⟩ := Option.bind_eq_some_iff.mp hp
  rw [(Event.place_of_brings he).1,List.length_take]
  exact Nat.lt_of_le_of_lt (Nat.min_le_left _ _) (List.mem_range.mp hi)

namespace Parcel

theorem waits_iff :
    p.waits rates es ↔ ∀ k ≤ es.length, p.place < k → clock (es.take k) < p.due rates := by
  simp only [waits,List.all_eq_true,List.mem_range,Bool.or_eq_true,decide_eq_true_eq,
    Nat.lt_succ_iff]
  exact forall₂_congr fun k _ => ⟨fun h hk => h.resolve_left (Nat.not_le_of_lt hk),
    fun h => (Nat.lt_or_ge p.place k).elim (fun hk => .inr (h hk)) .inl⟩

theorem waits_of_place (h : p.place = es.length) : p.waits rates es := by
  rw [waits_iff]
  intro k hk hp
  omega

theorem lt_due_of_waits (h : p.waits rates es) (hp : p.place < es.length) :
    clock es < p.due rates := by
  simpa using waits_iff.mp h es.length (Nat.le_refl _) hp

theorem waits_concat (hp : p.place ≤ es.length) :
    p.waits rates (es ++ [e]) = (p.waits rates es && !p.leaves rates es e) := by
  rw [Bool.eq_iff_iff,leaves,waits_iff,Bool.and_eq_true,Bool.not_eq_true',Bool.and_eq_false_iff]
  constructor
  · intro h
    refine ⟨waits_iff.mpr fun k hk hpk => ?_,.inr ?_⟩
    · simpa [List.take_append_of_le_length hk] using h k (by simp; omega) hpk
    · simpa [List.take_of_length_le] using h (es.length + 1) (by simp) (by omega)
  · rintro ⟨h,hlate⟩ k hk hpk
    have hclock : clock (es ++ [e]) < p.due rates := by
      simpa [h] using hlate
    rw [List.length_append,List.length_singleton] at hk
    rcases Nat.lt_or_ge es.length k with hlast | hle
    · rwa [List.take_of_length_le (by simp; omega)]
    · rw [List.take_append_of_le_length hle]
      exact waits_iff.mp h k hle hpk

theorem outputs_of_lost (h : p.lost rates = true) : p.outputs rates = [] := by
  simp [outputs,count,h,copies]

theorem length_outputs (p : Parcel) : (p.outputs rates).length = p.count rates := by
  simp [outputs,copies]

end Parcel

theorem flatMap_outputs_filter (ps : List Parcel) (keep : Parcel → Bool) :
    (ps.filter fun p => !p.lost rates && keep p).flatMap (·.outputs rates) =
      (ps.filter keep).flatMap (·.outputs rates) := by
  induction ps with
  | nil => rfl
  | cons p ps ih =>
    cases hk : keep p with
    | false => simp [hk,ih]
    | true =>
      cases hl : p.lost rates with
      | false => simp [hk,hl,ih]
      | true => simp [hk,hl,ih,Parcel.outputs_of_lost hl]

end

def total {α : Type} (count : α → Nat) : List α → Nat
  | [] => 0
  | a :: as => count a + total count as

theorem total_append {α : Type} (count : α → Nat) (as bs : List α) :
    total count (as ++ bs) = total count as + total count bs := by
  induction as with
  | nil => exact (Nat.zero_add _).symm
  | cons a as ih => rw [List.cons_append,total,ih,total,Nat.add_assoc]

theorem total_map {α β : Type} (count : β → Nat) (f : α → β) (as : List α) :
    total count (as.map f) = total (fun a => count (f a)) as := by
  induction as with
  | nil => rfl
  | cons a as ih => rw [List.map_cons,total,ih,total]

def lodge (r : Relay) (p : Parcel) : Relay :=
  { r with
    tally := (Fault.judge r.rates p.draws p.datagram r.tally).2.2
    held := r.held ++ if p.lost r.rates then [] else [p.held r.rates] }

theorem forward_of_lost {r : Relay} {p : Parcel} (h : p.lost r.rates = true) :
    r.forward p.dest p.datagram p.draws = (r.lodge p,[]) := by
  have hj := h
  rw [Parcel.lost] at hj
  simp [forward,lodge,Fault.judge,hj,h]

theorem forward_of_delayed {r : Relay} {p : Parcel} (hp : p.arrival = r.now)
    (h : p.lost r.rates = false) (hd : r.rates.delayed.happens p.draws.delayed = true) :
    r.forward p.dest p.datagram p.draws = (r.lodge p,[]) := by
  have hj := h
  rw [Parcel.lost] at hj
  simp [forward,lodge,Fault.judge,hj,h,hd,hp,Parcel.held,Parcel.due,Parcel.content,Parcel.count]

theorem forward_of_direct {r : Relay} {p : Parcel} (h : p.lost r.rates = false)
    (hd : r.rates.delayed.happens p.draws.delayed = false) :
    r.forward p.dest p.datagram p.draws =
      ({ r.lodge p with held := r.held },p.outputs r.rates) := by
  have hj := h
  rw [Parcel.lost] at hj
  simp [forward,lodge,Fault.judge,hj,h,hd,Parcel.outputs,Parcel.content,Parcel.count]

/-- To send a parcel at once is to hold it back for no time. -/
theorem forward_release {r : Relay} {p : Parcel} (hp : p.arrival = r.now)
    (hlate : ∀ h ∈ r.held, r.now < h.due) :
    ((r.forward p.dest p.datagram p.draws).1.release.1,
      (r.forward p.dest p.datagram p.draws).2 ++
        (r.forward p.dest p.datagram p.draws).1.release.2) = (r.lodge p).release := by
  cases hl : p.lost r.rates with
  | true => rw [forward_of_lost hl,List.nil_append]
  | false =>
    cases hd : r.rates.delayed.happens p.draws.delayed with
    | true => rw [forward_of_delayed hp hl hd,List.nil_append]
    | false =>
      have hdue : p.due r.rates = r.now := by simp [Parcel.due,hd,hp]
      have hnone : r.held.filter (fun h => decide (h.due ≤ r.now)) = [] :=
        List.filter_eq_nil_iff.mpr fun h hh => by simpa using hlate h hh
      rw [forward_of_direct hl hd]
      simp [release,lodge,hl,hnone,Parcel.held,Parcel.outputs,hdue]

theorem judge_forwarded (r : Relay) (p : Parcel) :
    (r.lodge p).tally.forwarded + (r.lodge p).tally.duplicated =
      r.tally.forwarded + r.tally.duplicated + p.count r.rates := by
  unfold lodge Fault.judge Parcel.count Parcel.lost
  cases r.rates.loss.happens p.draws.loss with
  | true => simp
  | false => cases r.rates.duplicate.happens p.draws.duplicate <;> simp <;> omega

theorem judge_processed (r : Relay) (p : Parcel) :
    (r.lodge p).tally.forwarded + (r.lodge p).tally.dropped =
      r.tally.forwarded + r.tally.dropped + 1 := by
  unfold lodge Fault.judge
  cases r.rates.loss.happens p.draws.loss with
  | true => simp; omega
  | false => simp; omega

/-- The state of a relay after some events, told from them; of what came, what was due after the
first `acted` of them has gone on. -/
structure Tracks (rates : Fault.Rates) (acted es : List Event) (r : Relay) : Prop where
  faults : r.rates = rates
  client : r.client = heard es
  now : r.now = clock es
  held : r.held = ((parcels es).filter fun p => !p.lost rates && p.waits rates acted).map
    (·.held rates)
  counted : r.tally.forwarded + r.tally.duplicated = total (·.count rates) (parcels es)
  processed : r.tally.forwarded + r.tally.dropped = (parcels es).length

section

variable {rates : Fault.Rates} {es : List Event} {e : Event} {r : Relay} {p : Parcel}

theorem tracks_start (rates : Fault.Rates) : Tracks rates [] [] (start rates) :=
  ⟨rfl,rfl,rfl,rfl,rfl,rfl⟩

theorem Tracks.late (h : Tracks rates es es r) : ∀ x ∈ r.held, r.now < x.due := by
  intro x hx
  rw [h.held] at hx
  obtain ⟨p,hp,rfl⟩ := List.mem_map.mp hx
  obtain ⟨hmem,hkeep⟩ := List.mem_filter.mp hp
  rw [h.now]
  exact Parcel.lt_due_of_waits (Bool.and_eq_true_iff.mp hkeep).2 (place_lt hmem)

theorem parcels_place_le (h : p ∈ parcels (es ++ [e])) : p.place ≤ es.length := by
  have hlt := place_lt h
  rw [List.length_append,List.length_singleton] at hlt
  omega

theorem release_of_held {ps : List Parcel} (h : r.held = ps.map (·.held rates)) :
    r.release =
      ({ r with held := (ps.filter fun p => decide (r.now < p.due rates)).map (·.held rates) },
        (ps.filter fun p => decide (p.due rates ≤ r.now)).flatMap (·.outputs rates)) := by
  rw [release,h,List.filter_map,List.filter_map,List.flatMap_map]
  rfl

/-- What is due after an event goes on, in the order in which it came. -/
theorem Tracks.release (h : Tracks rates es (es ++ [e]) r) :
    Tracks rates (es ++ [e]) (es ++ [e]) r.release.1 ∧ r.release.2 = sends rates es e := by
  rw [release_of_held h.held]
  refine ⟨⟨h.faults,h.client,h.now,?_,h.counted,h.processed⟩,?_⟩
  · simp only [List.filter_filter]
    congr 1
    refine List.filter_congr fun p hp => ?_
    rw [Parcel.waits_concat (parcels_place_le hp),Parcel.leaves,h.now]
    by_cases hdue : p.due rates ≤ clock (es ++ [e])
    · simp [hdue,Nat.not_lt_of_le hdue]
    · simp [hdue,Nat.lt_of_not_le hdue]
  · rw [sends,← flatMap_outputs_filter _ (·.leaves rates es e)]
    refine congrArg (List.flatMap _) ?_
    rw [List.filter_filter]
    refine List.filter_congr fun p _ => ?_
    rw [Parcel.leaves,h.now,Bool.and_comm,Bool.and_assoc]

theorem Tracks.lodge (h : Tracks rates es es r) (hp : e.brings es = some p) :
    Tracks rates es (es ++ [e]) ({ r with client := heard (es ++ [e]) }.lodge p) := by
  have hparcels : parcels (es ++ [e]) = parcels es ++ [p] := by rw [parcels_concat,hp]; rfl
  have hwaits : p.waits rates es := Parcel.waits_of_place (Event.place_of_brings hp).1
  have hf := h.faults
  refine ⟨hf,rfl,h.now.trans (clock_of_brings hp).symm,?_,?_,?_⟩
  · simp only [Relay.lodge,hparcels,h.held,hf,List.filter_append,List.map_append]
    cases hl : p.lost rates <;> simp [hl,hwaits]
  · rw [judge_forwarded,hparcels,total_append,← h.counted]
    simp [hf,total]
  · rw [judge_processed,hparcels,List.length_append,← h.processed]
    rfl

/-- An event takes in what it brings, and then all that is due goes on. -/
theorem Tracks.intake (h : Tracks rates es es r) (e : Event) :
    ∃ between, Tracks rates es (es ++ [e]) between ∧ r.step e = between.release := by
  cases e with
  | fromClient source datagram draws =>
    have hp : (Event.fromClient source datagram draws).brings es =
      some ⟨es.length,clock es,.server,datagram,draws⟩ := rfl
    refine ⟨_,h.lodge hp,?_⟩
    rw [← forward_release (by exact h.now.symm) (by exact h.late)]
    simp [step,react,heard_concat]
  | fromServer datagram draws =>
    cases hc : heard es with
    | none =>
      have hp : (Event.fromServer datagram draws).brings es = none := by simp [Event.brings,hc]
      refine ⟨r,⟨h.faults,?_,?_,?_,?_,?_⟩,?_⟩
      · rw [heard_concat]
        exact h.client
      · rw [clock_concat]
        exact h.now
      · simpa [parcels_concat,hp] using h.held
      · simpa [parcels_concat,hp] using h.counted
      · simpa [parcels_concat,hp] using h.processed
      · simp [step,react,h.client,hc]
    | some addr =>
      have hp : (Event.fromServer datagram draws).brings es =
        some ⟨es.length,clock es,.client addr,datagram,draws⟩ := by simp [Event.brings,hc]
      have hr : { r with client := heard (es ++ [.fromServer datagram draws]) } = r := by
        rw [heard_concat,← h.client]
      have hcarried := h.lodge hp
      rw [hr] at hcarried
      refine ⟨_,hcarried,?_⟩
      rw [← forward_release (by exact h.now.symm) h.late]
      simp [step,react,h.client,hc]
  | advance now =>
    have hp : (Event.advance now).brings es = none := rfl
    refine ⟨{ r with now },⟨h.faults,?_,?_,?_,?_,?_⟩,by simp [step,react]⟩
    · rw [heard_concat]
      exact h.client
    · rw [clock_concat]
    · simpa [parcels_concat,hp] using h.held
    · simpa [parcels_concat,hp] using h.counted
    · simpa [parcels_concat,hp] using h.processed

theorem Tracks.step (h : Tracks rates es es r) (e : Event) :
    Tracks rates (es ++ [e]) (es ++ [e]) (r.step e).1 ∧ (r.step e).2 = sends rates es e := by
  obtain ⟨between,hb,heq⟩ := h.intake e
  rw [heq]
  exact hb.release

abbrev afterwards (rates : Fault.Rates) (es : List Event) : Relay := ((start rates).run es).1

theorem tracks_run (rates : Fault.Rates) (es : List Event) :
    Tracks rates es es (afterwards rates es) := by
  induction es using List.reverseRecOn with
  | nil => exact tracks_start rates
  | append_singleton es e ih =>
    rw [afterwards,run,chain_append]
    exact (ih.step e).1

theorem run_concat (rates : Fault.Rates) (es : List Event) (e : Event) :
    ((start rates).run (es ++ [e])).2 = ((start rates).run es).2 ++ sends rates es e := by
  rw [run,chain_append,← ((tracks_run rates es).step e).2]
  simp [chain_cons,run,afterwards]

/-- What has gone on after an event went on with it or before it. -/
theorem gone_concat (rates : Fault.Rates) (es : List Event) (e : Event) :
    ((parcels (es ++ [e])).filter fun p => !p.waits rates (es ++ [e])).Perm
      (((parcels es).filter fun p => !p.waits rates es) ++
        (parcels (es ++ [e])).filter (·.leaves rates es e)) := by
  have hsplit : ∀ p ∈ parcels (es ++ [e]),
      p.waits rates (es ++ [e]) = (p.waits rates es && !p.leaves rates es e) :=
    fun p hp => Parcel.waits_concat (parcels_place_le hp)
  have hnow : ((parcels (es ++ [e])).filter fun p => !p.waits rates (es ++ [e])).filter
      (·.leaves rates es e) = (parcels (es ++ [e])).filter (·.leaves rates es e) := by
    rw [List.filter_filter]
    refine List.filter_congr fun p hp => ?_
    rw [hsplit p hp]
    cases p.leaves rates es e <;> simp
  have hbefore : ((parcels (es ++ [e])).filter fun p => !p.waits rates (es ++ [e])).filter
      (fun p => !p.leaves rates es e) = (parcels es).filter fun p => !p.waits rates es := by
    have hnew : ((e.brings es).toList.filter fun p => !p.waits rates es) = [] := by
      cases hp : e.brings es with
      | none => rfl
      | some p => simp [Parcel.waits_of_place (Event.place_of_brings hp).1]
    have hold : ((parcels es).filter fun p => !p.waits rates es) =
        (parcels (es ++ [e])).filter fun p => !p.waits rates es := by
      rw [parcels_concat,List.filter_append,hnew,List.append_nil]
    rw [hold,List.filter_filter]
    refine List.filter_congr fun p hp => ?_
    rw [hsplit p hp,Parcel.leaves]
    cases p.waits rates es <;> simp
  have h := List.filter_append_perm (·.leaves rates es e)
    ((parcels (es ++ [e])).filter fun p => !p.waits rates (es ++ [e]))
  rw [hnow,hbefore] at h
  exact h.symm.trans List.perm_append_comm

/-- Every copy of all that waits no longer has been sent, and nothing else. -/
theorem sent_perm (rates : Fault.Rates) (es : List Event) :
    ((start rates).run es).2.Perm
      (((parcels es).filter fun p => !p.waits rates es).flatMap (·.outputs rates)) := by
  induction es using List.reverseRecOn with
  | nil => exact .refl _
  | append_singleton es e ih =>
    rw [run_concat]
    refine .trans ?_ ((gone_concat rates es e).flatMap_right _).symm
    rw [List.flatMap_append]
    exact ih.append_right _

theorem length_flatMap_outputs (rates : Fault.Rates) (ps : List Parcel) :
    (ps.flatMap (·.outputs rates)).length = total (·.count rates) ps := by
  induction ps with
  | nil => rfl
  | cons p ps ih => rw [List.flatMap_cons,List.length_append,p.length_outputs,ih,total]

theorem copies_held (rates : Fault.Rates) (es : List Event) :
    total (·.copies) (afterwards rates es).held =
      (((parcels es).filter (·.waits rates es)).flatMap (·.outputs rates)).length := by
  rw [(tracks_run rates es).held,total_map,← flatMap_outputs_filter _ (·.waits rates es),
    length_flatMap_outputs]
  rfl

theorem balance (rates : Fault.Rates) (es : List Event) :
    ((start rates).run es).2.length + total (·.copies) (afterwards rates es).held =
      (afterwards rates es).tally.forwarded + (afterwards rates es).tally.duplicated := by
  have hsplit := (List.filter_append_perm (·.waits rates es) (parcels es)).flatMap_right
    (·.outputs rates)
  rw [(sent_perm rates es).length_eq,copies_held,(tracks_run rates es).counted,
    ← length_flatMap_outputs,← hsplit.length_eq,List.flatMap_append,List.length_append,
    Nat.add_comm]

theorem Parcel.count_of_decided (h : rates.decided) (p : Parcel) :
    p.count rates =
      if rates.loss = .always then 0 else if rates.duplicate = .always then 2 else 1 := by
  simp only [Fault.Rates.decided,Bool.and_eq_true] at h
  simp [count,lost,Rate.happens_of_decides h.1.1.1,Rate.happens_of_decides h.1.1.2]

theorem Parcel.due_of_decided (h : rates.decided) (p : Parcel) :
    p.due rates = p.arrival + if rates.delayed = .always then rates.delay.nanos else 0 := by
  simp only [Fault.Rates.decided,Bool.and_eq_true] at h
  simp [due,Rate.happens_of_decides h.2]

theorem Parcel.content_of_never (h : rates.corrupt = .never) (p : Parcel) :
    p.content rates = p.datagram := by
  simp [content,h,Rate.happens]

theorem clock_of_parcel (h : p ∈ parcels es) : clock (es.take (p.place + 1)) = p.arrival := by
  induction es using List.reverseRecOn with
  | nil => cases h
  | append_singleton es e ih =>
    rw [parcels_concat,List.mem_append,Option.mem_toList] at h
    rcases h with hold | hnew
    · rw [List.take_append_of_le_length (place_lt hold)]
      exact ih hold
    · obtain ⟨hplace,harrival⟩ := Event.place_of_brings hnew
      rw [hplace,List.take_of_length_le (by simp),clock_of_brings hnew,harrival]

theorem sends_of_never (h : rates.delayed = .never) (es : List Event) (e : Event) :
    sends rates es e = (e.brings es).toList.flatMap (·.outputs rates) := by
  have hdue : ∀ p : Parcel, p.due rates = p.arrival := fun p => by
    simp [Parcel.due,h,Rate.happens]
  have hold : (parcels es).filter (·.leaves rates es e) = [] := by
    refine List.filter_eq_nil_iff.mpr fun p hp hleaves => ?_
    have hw := Parcel.waits_iff.mp (Bool.and_eq_true_iff.mp hleaves).1 (p.place + 1)
      (place_lt hp) (Nat.lt_succ_self _)
    rw [clock_of_parcel hp,hdue] at hw
    exact Nat.lt_irrefl _ hw
  rw [sends,parcels_concat,List.filter_append,hold,List.nil_append]
  cases hp : e.brings es with
  | none => rfl
  | some p =>
    obtain ⟨hplace,harrival⟩ := Event.place_of_brings hp
    have hleaves : p.leaves rates es e = true := by
      rw [Parcel.leaves,Parcel.waits_of_place hplace,hdue,harrival,clock_of_brings hp]
      simp
    simp [hleaves]

theorem sent_of_never (h : rates.delayed = .never) (es : List Event) :
    ((start rates).run es).2 = (parcels es).flatMap (·.outputs rates) := by
  induction es using List.reverseRecOn with
  | nil => rfl
  | append_singleton es e ih =>
    rw [run_concat,ih,sends_of_never h,parcels_concat,List.flatMap_append]

def punctual : Relay → List Event → Bool
  | _, [] => true
  | r, e :: es =>
    (match e with
      | .advance now => r.next?.all (now ≤ ·)
      | _ => true) && punctual (r.step e).1 es

theorem le_next_of_punctual {r : Relay} {before after : List Event} {now : Nat}
    (h : r.punctual (before ++ .advance now :: after) = true) :
    ∀ x ∈ (r.run before).1.held, now ≤ x.due := by
  induction before generalizing r with
  | nil =>
    intro x hx
    have hmem : x.due ∈ r.held.map (·.due) := List.mem_map_of_mem hx
    obtain ⟨due,hdue⟩ := Option.isSome_iff_exists.mp (List.isSome_min?_of_mem hmem)
    have hle : r.next?.all (now ≤ ·) = true := (Bool.and_eq_true_iff.mp h).1
    rw [next?,hdue,Option.all_some,decide_eq_true_eq] at hle
    exact Nat.le_trans hle ((List.min?_eq_some_iff.mp hdue).2 _ hmem)
  | cons e before ih => exact ih (Bool.and_eq_true_iff.mp h).2

/-- Under a clock that passes over nothing, what is held back goes on exactly when it is due. -/
theorem exact_of_punctual {before after : List Event}
    (h : (start rates).punctual (before ++ e :: after) = true) (hp : p ∈ parcels (before ++ [e]))
    (hkept : p.lost rates = false) (hleaves : p.leaves rates before e = true) :
    clock (before ++ [e]) = p.due rates := by
  obtain ⟨hwaits,hdue⟩ := Bool.and_eq_true_iff.mp hleaves
  refine Nat.le_antisymm ?_ (of_decide_eq_true hdue)
  rw [parcels_concat,List.mem_append,Option.mem_toList] at hp
  rcases hp with hold | hnew
  · have hlate := Parcel.lt_due_of_waits hwaits (place_lt hold)
    cases e with
    | fromClient =>
      rw [clock_concat]
      exact Nat.le_of_lt hlate
    | fromServer =>
      rw [clock_concat]
      exact Nat.le_of_lt hlate
    | advance now =>
      rw [clock_concat]
      refine le_next_of_punctual h (p.held rates) ?_
      rw [← afterwards,(tracks_run rates before).held]
      exact List.mem_map_of_mem (List.mem_filter.mpr ⟨hold,by simp [hkept,hwaits]⟩)
  · rw [clock_of_brings hnew,Parcel.due,(Event.place_of_brings hnew).2]
    exact Nat.le_add_right _ _

theorem parcels_of_unheard (h : heard es = none) : parcels es = [] := by
  induction es using List.reverseRecOn with
  | nil => rfl
  | append_singleton es e ih =>
    rw [heard_concat] at h
    cases e with
    | fromClient => cases h
    | fromServer datagram draws =>
      have hes : heard es = none := h
      rw [parcels_concat,ih hes,Event.brings,hes]
      rfl
    | advance now =>
      rw [parcels_concat,ih h]
      rfl

theorem release_of_nothing_held (h : r.held = []) : r.release = (r,[]) := by
  obtain ⟨rates,client,tally,held,now⟩ := r
  cases h
  rfl

theorem step_of_unheard (h : heard es = none) (datagram : Bytes) (draws : Fault.Draws) :
    (afterwards rates es).step (.fromServer datagram draws) = (afterwards rates es,[]) := by
  have ht := tracks_run rates es
  have hheld : (afterwards rates es).held = [] := by
    rw [ht.held,parcels_of_unheard h]
    rfl
  have hreact : (afterwards rates es).react (.fromServer datagram draws) =
      (afterwards rates es,[]) := by
    simp [react,ht.client,h]
  rw [step,hreact]
  simp only [release_of_nothing_held hheld,List.append_nil]

end

/-- What a relay does with its parcels, as far as its faults let it. -/
structure Transparent (rates : Fault.Rates) (es : List Event) : Prop where
  /-- Loss goes before duplication, and the other faults touch neither where a parcel goes nor how
  often. -/
  count : ∀ p ∈ parcels es, p.count rates =
    if rates.loss = .always then 0 else if rates.duplicate = .always then 2 else 1
  due : ∀ p ∈ parcels es, p.due rates =
    p.arrival + if rates.delayed = .always then rates.delay.nanos else 0
  intact : rates.corrupt = .never → ∀ p ∈ parcels es, p.content rates = p.datagram
  /-- Every event sends what is due with it and was not due before, all copies of each parcel, in
  the order in which the parcels came. -/
  sends : ∀ before e after, es = before ++ e :: after →
    ((afterwards rates before).step e).2 = sends rates before e
  /-- So the parcels that wait no longer have been sent, each so often, and nothing else. -/
  sent : ((start rates).run es).2.Perm
    (((parcels es).filter fun p => !p.waits rates es).flatMap (·.outputs rates))
  exact : (start rates).punctual es = true → ∀ before e after, es = before ++ e :: after →
    ∀ p ∈ parcels (before ++ [e]), p.lost rates = false → p.leaves rates before e = true →
      clock (before ++ [e]) = p.due rates
  ordered : rates.delayed = .never →
    ((start rates).run es).2 = (parcels es).flatMap (·.outputs rates)
  discards : ∀ before datagram draws after, es = before ++ .fromServer datagram draws :: after →
    heard before = none → (afterwards rates before).step (.fromServer datagram draws) =
      (afterwards rates before,[])
  balanced : ((start rates).run es).2.length + total (·.copies) (afterwards rates es).held =
    (afterwards rates es).tally.forwarded + (afterwards rates es).tally.duplicated
  processed : (afterwards rates es).tally.forwarded + (afterwards rates es).tally.dropped =
    (parcels es).length

/-- A relay whose faults each happen always or never carries every datagram to where it was to go
when it came, so often and so late as the faults say, whatever else it hears meanwhile. -/
theorem transparent_along_run {rates : Fault.Rates} (h : rates.decided = true) (es : List Event) :
    Transparent rates es where
  count p _ := p.count_of_decided h
  due p _ := p.due_of_decided h
  intact hc p _ := p.content_of_never hc
  sends before e _ _ := ((tracks_run rates before).step e).2
  sent := sent_perm rates es
  exact hp before e after hes p hmem hkept hleaves := by
    rw [hes] at hp
    exact exact_of_punctual hp hmem hkept hleaves
  ordered hd := sent_of_never hd es
  discards _ datagram draws _ _ hu := step_of_unheard hu datagram draws
  balanced := balance rates es
  processed := (tracks_run rates es).processed

/-- Two clients and the server while everything is sent twice and late: the server's first word is
to nobody, its second goes to the client heard last when it came, not to the one heard last when it
leaves. -/
theorem transparent_along_run_overtaken :
    let rates : Fault.Rates := ⟨.never,.always,.never,.always,.ofMillis 5⟩
    let draws : Fault.Draws := ⟨0,0,0,0,0,0⟩
    let first : Address := ⟨.localhost,0,1⟩
    let second : Address := ⟨.localhost,0,2⟩
    let es : List Event := [.fromServer [0] draws,.fromClient first [1] draws,
      .fromServer [2] draws,.advance 3000000,.fromClient second [3] draws,.advance 5000000]
    rates.decided = true ∧ (start rates).punctual es = true ∧ Transparent rates es ∧
      ((start rates).run es).2 = [⟨.server,[1]⟩,⟨.server,[1]⟩,⟨.client first,[2]⟩,
        ⟨.client first,[2]⟩] ∧
      (afterwards rates es).held.map (·.copies) = [2] :=
  ⟨by decide,by decide +kernel,transparent_along_run (by decide) _,by decide +kernel,
    by decide +kernel⟩

end Relay
end ReliableTransport
