import ReliableTransport.Calls
import ReliableTransport.Proofs.Flips

/-! What befalls datagrams on a bad network, and how it is counted. Every datagram gives its verdict,
what goes on of it and whether it was counted as corrupted; the counters are those of all of them,
kept datagram by datagram (`Tallied.runs`). What is not corrupted goes on as it came, and what is
corrupted differs in one bit and can no longer be read (`mishaps_along_run`). -/
namespace ReliableTransport
namespace Fault

namespace Verdict

def copies : Verdict → Nat
  | drop => 0
  | deliver copies _ => copies

def delay : Verdict → Option Duration
  | drop => none
  | deliver _ delay => delay

end Verdict

structure Mishap where
  original : Bytes
  verdict : Verdict
  result : Bytes
  corrupted : Bool
  deriving DecidableEq

namespace Mishap

def dropped (o : Mishap) : Bool := o.verdict = .drop

def doubled (o : Mishap) : Bool := o.verdict.copies = 2

def changed (o : Mishap) : Bool := o.result ≠ o.original

def late (o : Mishap) : Bool := o.verdict.delay.isSome

end Mishap

def meet (rates : Rates) (tally : Tally) (d : Draws × Bytes) : Tally × List Mishap :=
  let (verdict,result,after) := judge rates d.1 d.2 tally
  (after,[⟨d.2,verdict,result,after.corrupted ≠ tally.corrupted⟩])

def sentOn (os : List Mishap) : List Mishap := os.filter fun o => !o.dropped

def Tally.enter (t : Tally) (o : Mishap) : Tally where
  forwarded := t.forwarded + (!o.dropped).toNat
  dropped := t.dropped + o.dropped.toNat
  duplicated := t.duplicated + o.doubled.toNat
  corrupted := t.corrupted + o.changed.toNat
  delayed := t.delayed + o.late.toNat

variable {rates : Rates} {d : Draws × Bytes} {o : Mishap} {os : List Mishap} {t : Tally}

def onward (rates : Rates) (twice late : Bool) : Verdict :=
  .deliver (if twice then 2 else 1) (if late then some rates.delay else none)

inductive Befalls (rates : Rates) (d : Draws × Bytes) : Mishap → Prop
  | lost : Befalls rates d ⟨d.2,.drop,d.2,false⟩
  | passed (twice late : Bool) : Befalls rates d ⟨d.2,onward rates twice late,d.2,false⟩
  | damaged (twice late : Bool) (h : d.2 ≠ []) :
      Befalls rates d ⟨d.2,onward rates twice late,flip d.2 d.1.byte d.1.bit,true⟩

theorem flip_ne {datagram : Bytes} (h : datagram ≠ []) (byte bit : Nat) :
    flip datagram byte bit ≠ datagram := by
  obtain ⟨xs,b,c,ys,rfl,hflip,hbc⟩ := flip_eq h byte bit
  rw [hflip]
  simpa using hbc.symm

theorem enter_onward (t : Tally) (datagram result : Bytes) (twice late damaged : Bool) :
    t.enter ⟨datagram,onward rates twice late,result,damaged⟩ =
      { t with
        forwarded := t.forwarded + 1
        duplicated := t.duplicated + twice.toNat
        corrupted := t.corrupted + (decide (result ≠ datagram)).toNat
        delayed := t.delayed + late.toNat } := by
  cases twice with
  | true => cases late <;> rfl
  | false => cases late <;> rfl

theorem meet_befalls (rates : Rates) (t : Tally) (d : Draws × Bytes) :
    ∃ o, Befalls rates d o ∧ meet rates t d = (t.enter o,[o]) := by
  obtain ⟨draws,datagram⟩ := d
  cases hloss : rates.loss.happens draws.loss with
  | true =>
    refine ⟨_,.lost,?_⟩
    simp [meet,judge,hloss,Tally.enter,Mishap.dropped,Mishap.doubled,Mishap.changed,Mishap.late,
      Verdict.copies,Verdict.delay]
  | false =>
    cases hc : !datagram.isEmpty && rates.corrupt.happens draws.corrupt with
    | false =>
      refine ⟨_,.passed (rates.duplicate.happens draws.duplicate)
        (rates.delayed.happens draws.delayed),?_⟩
      rw [enter_onward]
      simp [meet,judge,hloss,hc,onward]
    | true =>
      have hne : datagram ≠ [] := by
        rintro rfl
        cases hc
      refine ⟨_,.damaged (rates.duplicate.happens draws.duplicate)
        (rates.delayed.happens draws.delayed) hne,?_⟩
      rw [enter_onward]
      simp [meet,judge,hloss,hc,onward,flip_ne hne]

structure Tallied (os : List Mishap) (t : Tally) : Prop where
  forwarded : t.forwarded = (sentOn os).length
  dropped : t.dropped = os.countP (·.dropped)
  duplicated : t.duplicated = (sentOn os).countP (·.doubled)
  corrupted : t.corrupted = (sentOn os).countP (·.changed)
  delayed : t.delayed = (sentOn os).countP (·.late)
  copies : (os.map (·.verdict.copies)).sum = t.forwarded + t.duplicated

theorem tallied_zero : Tallied [] .zero := ⟨rfl,rfl,rfl,rfl,rfl,rfl⟩

theorem Befalls.of_dropped (h : Befalls rates d o) (hd : o.dropped = true) :
    o.doubled = false ∧ o.changed = false ∧ o.late = false := by
  cases h with
  | lost => exact ⟨rfl,by simp [Mishap.changed],rfl⟩
  | passed twice late => cases hd
  | damaged twice late hne => cases hd

theorem countP_forwarded (f : Mishap → Bool) (h : o.dropped = true → f o = false) :
    (sentOn [o]).countP f = (f o).toNat := by
  cases hd : o.dropped with
  | true => simp [sentOn,hd,h hd]
  | false => cases hf : f o <;> simp [sentOn,hd,hf]

theorem Befalls.copies (h : Befalls rates d o) :
    o.verdict.copies = (!o.dropped).toNat + o.doubled.toNat := by
  cases h with
  | lost => rfl
  | passed twice late => cases twice <;> rfl
  | damaged twice late hne => cases twice <;> rfl

theorem Tallied.enter (h : Tallied os t) (hb : Befalls rates d o) :
    Tallied (os ++ [o]) (t.enter o) := by
  have hf : sentOn (os ++ [o]) = sentOn os ++ sentOn [o] := List.filter_append ..
  refine ⟨?_,?_,?_,?_,?_,?_⟩
  · rw [Tally.enter,h.forwarded,hf,List.length_append]
    cases hd : o.dropped <;> simp [sentOn,hd]
  · rw [Tally.enter,h.dropped,List.countP_append]
    cases hd : o.dropped <;> simp [hd]
  · rw [hf,List.countP_append,countP_forwarded _ fun hd => (hb.of_dropped hd).1,Tally.enter,
      h.duplicated]
  · rw [hf,List.countP_append,countP_forwarded _ fun hd => (hb.of_dropped hd).2.1,Tally.enter,
      h.corrupted]
  · rw [hf,List.countP_append,countP_forwarded _ fun hd => (hb.of_dropped hd).2.2,Tally.enter,
      h.delayed]
  · rw [List.map_append,List.sum_append,h.copies,List.map_singleton,List.sum_singleton,hb.copies]
    exact Nat.add_add_add_comm ..

theorem Tallied.balance (h : Tallied os t) : t.forwarded + t.dropped = os.length := by
  have hsplit := List.length_eq_countP_add_countP (fun o : Mishap => o.dropped) (l := os)
  rw [h.forwarded,h.dropped,sentOn,← List.countP_eq_length_filter,hsplit,Nat.add_comm]
  simp

/-- Datagrams in a row each meet one of their mishaps, and all of them are counted. -/
theorem Tallied.runs (h : Tallied os t) (rates : Rates) (ds : List (Draws × Bytes)) :
    List.Forall₂ (Befalls rates) ds (chain (meet rates) t ds).2 ∧
      Tallied (os ++ (chain (meet rates) t ds).2) (chain (meet rates) t ds).1 := by
  induction ds generalizing os t with
  | nil => exact ⟨.nil,by simpa using h⟩
  | cons d ds ih =>
    obtain ⟨o,hb,hm⟩ := meet_befalls rates t d
    rw [chain_cons,hm,← List.append_assoc]
    obtain ⟨hrest,htally⟩ := ih (h.enter hb)
    exact ⟨.cons hb hrest,htally⟩

theorem exists_bit_flip {datagram : Bytes} (h : datagram ≠ []) (byte index : Nat) :
    ∃ place < 8*datagram.length, ∀ q,
      bit (flip datagram byte index) q ≠ bit datagram q ↔ q = place := by
  have hpos := List.length_pos_iff.mpr h
  have hbyte := Nat.mod_lt byte hpos
  have hindex : index % 8 < 8 := Nat.mod_lt _ (by decide)
  have hplace : 8*(byte % datagram.length) + (7 - index % 8) < 8*datagram.length := by omega
  have hflip : flip datagram byte index =
      flip datagram ((8*(byte % datagram.length) + (7 - index % 8)) / 8)
        (7 - (8*(byte % datagram.length) + (7 - index % 8)) % 8) := by
    rw [show (8*(byte % datagram.length) + (7 - index % 8)) / 8 = byte % datagram.length by omega,
      show 7 - (8*(byte % datagram.length) + (7 - index % 8)) % 8 = index % 8 by omega,
      flip,flip,Nat.mod_mod,Nat.mod_mod]
  refine ⟨_,hplace,fun q => ?_⟩
  rw [hflip,bit_flip hplace]
  by_cases hq : q = 8*(byte % datagram.length) + (7 - index % 8)
  · simp [hq]
  · simp [hq]

structure Harm (o : Mishap) : Prop where
  spared : o.verdict = .drop ∨ o.corrupted = false → o.result = o.original
  empty : o.original = [] → o.corrupted = false
  length : o.result.length = o.original.length
  bit : o.corrupted = true → ∃ place < 8*o.original.length, ∀ q,
    bit o.result q ≠ bit o.original q ↔ q = place
  noticed : o.corrupted = true → ∀ f, Frame.decode o.original = .ok f →
    ∃ e, Frame.decode o.result = .error e

theorem Befalls.harm (h : Befalls rates d o) : Harm o := by
  cases h with
  | lost => exact ⟨fun _ => rfl,fun _ => rfl,rfl,nofun,nofun⟩
  | passed twice late =>
    exact ⟨fun _ => rfl,fun _ => rfl,rfl,nofun,nofun⟩
  | damaged twice late hne =>
    refine ⟨fun hor => ?_,fun hnil => absurd hnil hne,length_flip _ _ _,
      fun _ => exists_bit_flip hne _ _,fun _ f hf => Frame.decode_flip hf _ _⟩
    rcases hor with hdrop | hspared
    · cases hdrop
    · cases hspared

theorem Befalls.original (h : Befalls rates d o) : o.original = d.2 := by
  cases h <;> rfl

/-- What befell datagrams in a row, and what the counters say about it. -/
structure Mishaps (ds : List (Draws × Bytes)) (os : List Mishap) (t : Tally) : Prop where
  befell : List.Forall₂ (fun d o => o.original = d.2 ∧ Harm o) ds os
  balance : t.forwarded + t.dropped = ds.length
  duplicated : t.duplicated = (sentOn os).countP (·.doubled)
  corrupted : t.corrupted = (sentOn os).countP (·.changed)
  delayed : t.delayed = (sentOn os).countP (·.late)
  copies : (os.map (·.verdict.copies)).sum = t.forwarded + t.duplicated

/-- Whatever the rates are and however the dice fall, the counters say what befell the datagrams,
and none was harmed but by one bit of each that is counted as corrupted. -/
theorem mishaps_along_run (rates : Rates) (ds : List (Draws × Bytes)) :
    Mishaps ds (chain (meet rates) .zero ds).2 (chain (meet rates) .zero ds).1 := by
  obtain ⟨hbefalls,htally⟩ := tallied_zero.runs rates ds
  rw [List.nil_append] at htally
  refine ⟨hbefalls.imp fun _ _ hb => ⟨hb.original,hb.harm⟩,?_,htally.duplicated,htally.corrupted,
    htally.delayed,htally.copies⟩
  rw [htally.balance,hbefalls.length_eq]

/-- One datagram is damaged, an empty one cannot be, and the third is lost. -/
example :
    chain (meet ⟨.sometimes 5,.always,.always,.never,.zero⟩) .zero
        [(⟨9,0,0,0,3,12⟩,[1,2]),(⟨9,0,0,0,3,12⟩,[]),(⟨4,0,0,0,3,12⟩,[7])] =
      (⟨2,1,2,1,0⟩,[⟨[1,2],.deliver 2 none,[1,18],true⟩,⟨[],.deliver 2 none,[],false⟩,
        ⟨[7],.drop,[7],false⟩]) := by
  decide +kernel

end Fault
end ReliableTransport
