import ReliableTransport.Proofs.Flight

/-! How long a handshake stands. Whether it does is the sign of the acknowledged point, and the
point goes around the circle of fragment numbers: after as many acknowledged fragments as there are
numbers that are not negative it is negative again, as it was before the handshake. The point is
read off a log of requests (`Log.point`); until then the handshake stands and no other is taken,
and after that it is as if there had been none (`Tenure`). -/
namespace ReliableTransport
namespace Outbox

open Signed

variable {b c : Outbox} {log : Log} {q : Request} {reply : Reply}

/-- How many fragments are acknowledged since the handshake was taken last, after a reply. -/
def Reply.advance (reply : Reply) (point : Option Nat) : Option Nat :=
  match reply with
  | .opened true => some 0
  | .released count => point.map (· + count)
  | _ => point

namespace Log

/-- How many fragments are acknowledged since the handshake was taken last, if it was taken. -/
def point (log : Log) : Option Nat := log.foldl (fun point e => e.2.advance point) none

def openings (log : Log) : Nat := log.countP fun e => e.2 = .opened true

theorem point_concat (log : Log) (q : Request) (reply : Reply) :
    point (log ++ [(q,reply)]) = reply.advance (point log) := by
  rw [point,List.foldl_append]
  rfl

theorem openings_concat (log : Log) (q : Request) (reply : Reply) :
    openings (log ++ [(q,reply)]) = openings log + if reply = .opened true then 1 else 0 := by
  rw [openings,List.countP_append,List.countP_singleton]
  simp [openings]

end Log

open Log

theorem toInt_ofNat_beyond {n : Nat} (hl : fragmentLimit < n)
    (hu : n ≤ fragmentLimit + ringCapacity) : (Int32.ofNat n).toInt = n - 4294967296 := by
  unfold fragmentLimit at hl
  unfold fragmentLimit ringCapacity at hu
  rw [Int32.toInt_ofNat',← Int.sub_bmod_right]
  exact Int.bmod_eq_of_le (by simp only [Int32.size]; omega) (by simp only [Int32.size]; omega)

theorem established_iff_of_number {n : Nat} (hn : b.lastAcked = Int32.ofNat n)
    (hu : n ≤ fragmentLimit + ringCapacity) : b.established = true ↔ n ≤ fragmentLimit := by
  rw [established_eq_true_iff,hn]
  by_cases hl : n ≤ fragmentLimit
  · rw [toInt_ofNat hl]
    omega
  · rw [toInt_ofNat_beyond (by omega) hu]
    unfold fragmentLimit ringCapacity at *
    omega

structure Dated (b : Outbox) (log : Log) : Prop where
  coherent : b.Coherent
  fresh : point log = none → b.lastAcked = -1 ∧ openings log = 0
  number : ∀ n, point log = some n →
    b.lastAcked = Int32.ofNat n ∧ n ≤ fragmentLimit + ringCapacity ∧ 0 < openings log
  spent : (openings log - 1)*(fragmentLimit + 1) + (point log).getD 0 + b.slots.length ≤
    (payloads log).length

theorem dated_start (made : Nat) : (start made).Dated [] where
  coherent := (coherent_start made).1
  fresh := fun _ => ⟨rfl,rfl⟩
  number := fun _ h => by cases h
  spent := Nat.le_refl _

theorem Dated.established_iff (h : b.Dated log) :
    b.established = true ↔ ∃ n, point log = some n ∧ n ≤ fragmentLimit := by
  cases hp : point log with
  | none =>
    have hneg : b.established = false := by
      rw [established,(h.fresh hp).1]
      decide
    simp [hneg]
  | some n =>
    obtain ⟨hn,hu,-⟩ := h.number n hp
    rw [established_iff_of_number hn hu]
    simp

/-- What a reply leaves of the log's reckoning if it acknowledges nothing and opens nothing. -/
theorem Dated.of_still (h : b.Dated log) (hc : c.Coherent) (hacked : c.lastAcked = b.lastAcked)
    (hadvance : reply.advance (point log) = point log) (hopened : reply ≠ .opened true)
    (hslots : c.slots.length + (payloads log).length ≤
      b.slots.length + (payloads (log ++ [(q,reply)])).length) :
    c.Dated (log ++ [(q,reply)]) := by
  have hspent := h.spent
  refine ⟨hc,?_,?_,?_⟩
  · rw [point_concat,openings_concat,if_neg hopened,hadvance,hacked]
    exact h.fresh
  · rw [point_concat,openings_concat,if_neg hopened,hadvance,hacked]
    exact h.number
  · rw [point_concat,openings_concat,if_neg hopened,hadvance,Nat.add_zero]
    omega

theorem Comes.dated (he : Comes b q reply c) (h : b.Dated log) : c.Dated (log ++ [(q,reply)]) := by
  have hc := (he.coherent h.coherent).1
  have hspent := h.spent
  cases he with
  | refused | late | transmitted | rested =>
    exact h.of_still hc rfl rfl (by simp) (by simp [payloads])
  | ignored => exact h.of_still hc rfl (by simp [Reply.advance]) (by simp) (by simp [payloads])
  | held => exact h.of_still hc rfl rfl (by simp) (by simp [payloads]; omega)
  | opened down =>
    refine ⟨hc,?_,?_,?_⟩
    · intro hnone
      rw [point_concat] at hnone
      cases hnone
    · intro n hn
      rw [point_concat] at hn
      obtain rfl := Option.some.inj hn
      rw [openings_concat,if_pos rfl]
      exact ⟨rfl,Nat.zero_le _,Nat.succ_pos _⟩
    · have hworn : openings log*(fragmentLimit + 1) + b.slots.length ≤ (payloads log).length := by
        cases hp : point log with
        | none =>
          rw [(h.fresh hp).2,Nat.zero_mul]
          omega
        | some n =>
          obtain ⟨hnumber,hu,htaken⟩ := h.number n hp
          have hworn : ¬ n ≤ fragmentLimit := by
            rw [← established_iff_of_number hnumber hu,down]
            simp
          obtain ⟨k,hk⟩ : ∃ k, openings log = k + 1 := ⟨openings log - 1,by omega⟩
          rw [hp,Option.getD_some,hk,Nat.add_sub_cancel] at hspent
          rw [hk,Nat.succ_mul]
          omega
      rw [point_concat,openings_concat,if_pos rfl,Reply.advance,payloads_append]
      simpa [payloads] using hworn
  | @acknowledged window now progress count up sent =>
    obtain ⟨n,hn,hle⟩ := h.established_iff.mp up
    obtain ⟨hnumber,-,htaken⟩ := h.number n hn
    have hring := h.coherent.flight_le
    have hheld := h.coherent.held
    rw [hn,Option.getD_some] at hspent
    refine ⟨hc,?_,?_,?_⟩
    · intro hnone
      rw [point_concat,hn] at hnone
      cases hnone
    · intro m hm
      rw [point_concat,hn] at hm
      obtain rfl : n + count = m := Option.some.inj hm
      rw [openings_concat]
      refine ⟨?_,by omega,by omega⟩
      simp only [hnumber]
      exact (Int32.ofNat_add n count).symm
    · rw [point_concat,openings_concat,if_neg (by simp),hn,Reply.advance,Option.map_some,
        Option.getD_some,Nat.add_zero,payloads_append]
      simp only [payloads,List.filterMap_cons,List.filterMap_nil,List.append_nil,List.length_drop]
      simp only [payloads] at hspent
      omega

theorem Dated.runs (h : b.Dated log) (requests : List Request) :
    (chain serve b requests).1.Dated (log ++ (chain serve b requests).2) :=
  Coherent.induct (Q := fun _ => True) (fun _ _ h => h.coherent)
    (fun _ _ _ _ _ he h _ => he.dated h) h requests fun _ _ => trivial

/-- How long the handshake stands, as a log tells. -/
structure Tenure (b : Outbox) (log : Log) : Prop where
  /-- The handshake stands from when it is taken until more fragments are acknowledged than there
  are numbers. -/
  stands : b.established = true ↔ ∃ n, point log = some n ∧ n ≤ fragmentLimit
  refuses : b.established = true → ∀ window now,
    b.serve (.establish window now) = (b,[(.establish window now,.opened false)])
  acked : ∀ n, point log = some n → n ≤ fragmentLimit →
    ∀ k ≤ fragmentLimit, b.acked (Int32.ofNat k) = true ↔ k ≤ n
  last : ∀ n, point log = some n → b.lastAcked = Int32.ofNat n
  /-- When it does not nothing is acknowledged nor can be, and the next handshake is taken. -/
  lapsed : b.established = false → (∀ fragment, b.acked fragment = false) ∧
    (∀ fragment window now, b.serve (.acknowledge fragment window now) =
      (b,[(.acknowledge fragment window now,.released 0)])) ∧
    ∀ window now, (b.serve (.establish window now)).2 = [(.establish window now,.opened true)]
  openings_le : openings log ≤ 1 + (payloads log).length/(fragmentLimit + 1)
  lasting : 0 < openings log → (payloads log).length ≤ fragmentLimit → b.established = true

theorem Dated.acked_iff (h : b.Dated log) {n k : Nat} (hn : point log = some n)
    (hle : n ≤ fragmentLimit) (hk : k ≤ fragmentLimit) :
    b.acked (Int32.ofNat k) = true ↔ k ≤ n := by
  have hup : b.established = true := h.established_iff.mpr ⟨n,hn,hle⟩
  rw [Outbox.acked,hup,Bool.true_and,decide_eq_true_eq,(h.number n hn).1,nonpos_iff,
    toInt_ofNat_sub hk hle]
  omega

theorem Dated.openings_le (h : b.Dated log) :
    openings log ≤ 1 + (payloads log).length/(fragmentLimit + 1) := by
  have hworn : (openings log - 1)*(fragmentLimit + 1) ≤ (payloads log).length :=
    Nat.le_trans (Nat.le_add_right _ _) (Nat.le_trans (Nat.le_add_right _ _) h.spent)
  have hdiv : openings log - 1 ≤ (payloads log).length/(fragmentLimit + 1) :=
    (Nat.le_div_iff_mul_le (show 0 < fragmentLimit + 1 by decide)).mpr hworn
  exact Nat.sub_le_iff_le_add'.mp hdiv

theorem Dated.lasting (h : b.Dated log) (htaken : 0 < openings log)
    (hfew : (payloads log).length ≤ fragmentLimit) : b.established = true := by
  cases hp : point log with
  | none =>
    rw [(h.fresh hp).2] at htaken
    exact absurd htaken (Nat.lt_irrefl 0)
  | some n =>
    have hspent := h.spent
    rw [hp,Option.getD_some] at hspent
    exact h.established_iff.mpr ⟨n,hp,by omega⟩

theorem Dated.tenure (h : b.Dated log) : b.Tenure log where
  stands := h.established_iff
  refuses := by
    intro hup window now
    rw [serve,establish_of_established hup]
  acked := fun n hn hle k hk => h.acked_iff hn hle hk
  last := fun n hn => (h.number n hn).1
  lapsed := by
    intro hdown
    refine ⟨fun fragment => ?_,fun fragment window now => ?_,fun window now => ?_⟩
    · rw [Outbox.acked,hdown,Bool.false_and]
    · rw [serve,acknowledge_of_not_established hdown]
    · rw [serve,establish,if_neg (by rw [hdown]; simp)]
  openings_le := h.openings_le
  lasting := h.lasting

/-- A handshake that was taken stands for as many acknowledged fragments as there are numbers that
are not negative, whatever is asked, and no longer. -/
theorem tenure_along_run (made : Nat) (requests : List Request) :
    (chain serve (start made) requests).1.Tenure (chain serve (start made) requests).2 := by
  have hrun := (dated_start made).runs requests
  rw [List.nil_append] at hrun
  exact hrun.tenure

def worn (k : Nat) : Outbox :=
  ⟨Int32.ofNat k,Sender.minWindow,0,[],Int32.ofNat k,Int32.ofNat k⟩

def wear (k : Nat) : Log :=
  [(.push [97],.held (Int32.ofNat (k + 1))),
    (.next 0 Sender.minWindow 0,.acted (.transmit (Int32.ofNat (k + 1)) [97])),
    (.acknowledge (Int32.ofNat (k + 1)) Sender.minWindow 0,.released 1)]

def wearing (n : Nat) : Log :=
  (.establish Sender.minWindow 0,.opened true) :: (List.range n).flatMap wear

theorem chain_wear {k : Nat} (hk : k ≤ fragmentLimit) :
    chain serve (worn k) ((wear k).map (·.1)) = (worn (k + 1),wear k) := by
  have hup : 0 ≤ Int32.ofNat k := by
    rw [nonneg_iff,toInt_ofNat hk]
    omega
  have hsucc : Int32.ofNat (k + 1) = Int32.ofNat k + 1 := Int32.ofNat_add k 1
  have hone : Int32.ofNat k + 1 - Int32.ofNat k = 1 := by grind
  have hpush : (worn k).serve (.push [97]) =
      ({ worn k with slots := [[97]] },[(.push [97],.held (Int32.ofNat (k + 1)))]) := by
    rw [hsucc]
    rfl
  have hnext : ({ worn k with slots := [[97]] } : Outbox).serve (.next 0 Sender.minWindow 0) =
      ({ worn k with
          slots := [[97]]
          lastSent := Int32.ofNat (k + 1)
          highestSent := Int32.ofNat (k + 1) },
        [(.next 0 Sender.minWindow 0,.acted (.transmit (Int32.ofNat (k + 1)) [97]))]) := by
    simp [serve,next,cursor,worn,hsucc,hone]
  have hack : ({ worn k with
        slots := [[97]]
        lastSent := Int32.ofNat (k + 1)
        highestSent := Int32.ofNat (k + 1) } : Outbox).serve
          (.acknowledge (Int32.ofNat (k + 1)) Sender.minWindow 0) =
      (worn (k + 1),[(.acknowledge (Int32.ofNat (k + 1)) Sender.minWindow 0,.released 1)]) := by
    simp [serve,acknowledge,established,worn,hsucc,hone,hup,widen]
  simp only [wear,List.map_cons,List.map_nil,chain_cons,chain_nil,hpush,hnext,hack,
    List.append_nil,List.cons_append,List.nil_append]

theorem wearing_succ (n : Nat) : wearing (n + 1) = wearing n ++ wear n := by
  rw [wearing,wearing,List.range_succ,List.flatMap_append,List.flatMap_singleton,List.cons_append]

theorem chain_wearing {n : Nat} (hn : n ≤ fragmentLimit + 1) :
    chain serve (start 0) ((wearing n).map (·.1)) = (worn n,wearing n) := by
  induction n with
  | zero => rfl
  | succ n ih =>
    rw [wearing_succ,List.map_append,chain_append,ih (by omega),chain_wear (by omega)]

/-- The acknowledgement with which the handshake has outlasted the numbers undoes it, and itself:
the fragment just acknowledged is not, and the next handshake is taken. -/
theorem handshake_worn_out :
    let requests := (wearing (fragmentLimit + 1)).map (·.1)
    let b := (chain serve (start 0) requests).1
    let log := (chain serve (start 0) requests).2
    log.head? = some (.establish Sender.minWindow 0,.opened true) ∧
      log.getLast? = some (.acknowledge b.lastAcked Sender.minWindow 0,.released 1) ∧
      b.established = false ∧ b.acked b.lastAcked = false ∧
      (b.serve (.establish Sender.minWindow 0)).2 =
        [(.establish Sender.minWindow 0,.opened true)] := by
  intro requests b log
  have hchain : chain serve (start 0) requests =
      (worn (fragmentLimit + 1),wearing (fragmentLimit + 1)) := chain_wearing (Nat.le_refl _)
  have hb : b = worn (fragmentLimit + 1) := congrArg Prod.fst hchain
  have hlog : log = wearing (fragmentLimit + 1) := congrArg Prod.snd hchain
  have hdown : (worn (fragmentLimit + 1)).established = false := by decide
  rw [hb,hlog]
  refine ⟨rfl,?_,hdown,?_,?_⟩
  · rw [wearing_succ,List.getLast?_append]
    rfl
  · rw [Outbox.acked,hdown,Bool.false_and]
  · rw [serve,establish,if_neg (by rw [hdown]; simp)]

end Outbox
end ReliableTransport
