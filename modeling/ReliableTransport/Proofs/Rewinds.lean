import Mathlib.Data.List.Induction
import ReliableTransport.Proofs.Requests

/-! When an outbox sends something again. What a request does to the cursor is one of a few things
(`Effect`); along a log of requests the cursor stays at or after every payload sent since it last
went back, and the wait for an acknowledgement is counted from the last time it was renewed
(`Tracks`). Hence payloads go out for the first time in order, again only after the cursor went
back, and the cursor goes back only when something is outstanding for too long (`Disciplined`). -/
namespace ReliableTransport
namespace Outbox

open Log Signed

variable {b c : Outbox} {pushed : List Bytes} {log : Log} {q : Request} {reply : Reply}

def Request.reading : Request → Option Nat
  | .acknowledge _ _ now => some now
  | .next now _ _ => some now
  | _ => none

/-- The outbox after the requests of a log. -/
def after (b : Outbox) (log : Log) : Outbox := (chain serve b (log.map (·.1))).1

def Logs (b : Outbox) (log : Log) : Prop := (chain serve b (log.map (·.1))).2 = log

theorem serve_entry (b : Outbox) (q : Request) : ∃ reply, (b.serve q).2 = [(q,reply)] := by
  unfold serve
  split
  · split <;> exact ⟨_,rfl⟩
  · exact ⟨_,rfl⟩
  · split <;> exact ⟨_,rfl⟩
  · exact ⟨_,rfl⟩

theorem map_fst_chain_serve (b : Outbox) (requests : List Request) :
    (chain serve b requests).2.map (·.1) = requests := by
  induction requests generalizing b with
  | nil => rfl
  | cons q requests ih =>
    obtain ⟨reply,hreply⟩ := b.serve_entry q
    rw [chain_cons,List.map_append,ih,hreply]
    rfl

theorem logs_chain (b : Outbox) (requests : List Request) :
    b.Logs (chain serve b requests).2 := by
  rw [Logs,map_fst_chain_serve]

theorem after_concat (b : Outbox) (log : Log) (q : Request) (reply : Reply) :
    b.after (log ++ [(q,reply)]) = ((b.after log).serve q).1 := by
  rw [after,List.map_append,chain_append]
  rfl

theorem logs_concat_iff :
    b.Logs (log ++ [(q,reply)]) ↔ b.Logs log ∧ ((b.after log).serve q).2 = [(q,reply)] := by
  obtain ⟨now,hnow⟩ := (b.after log).serve_entry q
  have hlast : (chain serve (b.after log) [q]).2 = [(q,now)] := by
    rw [chain_cons,hnow]
    rfl
  unfold Logs
  rw [List.map_append,List.map_singleton,chain_append]
  change _ ++ (chain serve (b.after log) [q]).2 = _ ↔ _
  rw [hlast,hnow]
  constructor
  · intro h
    exact List.append_inj' h rfl
  · rintro ⟨hlog,he⟩
    rw [hlog,he]

theorem Logs.of_append {past rest : Log} (h : b.Logs (past ++ rest)) : b.Logs past := by
  induction rest using List.reverseRecOn with
  | nil => rwa [List.append_nil] at h
  | append_singleton rest e ih =>
    rw [← List.append_assoc] at h
    exact ih (logs_concat_iff.mp h).1

theorem Logs.at {past rest : Log} (h : b.Logs (past ++ (q,reply) :: rest)) :
    b.Logs past ∧ ((b.after past).serve q).2 = [(q,reply)] := by
  rw [List.append_cons] at h
  exact logs_concat_iff.mp h.of_append

/-- Where an entry of a log stands when one more is added to the log. -/
theorem split_concat {α : Type} {xs past rest : List α} {x y : α}
    (h : xs ++ [x] = past ++ y :: rest) :
    (xs = past ∧ x = y ∧ rest = []) ∨ ∃ more, xs = past ++ y :: more ∧ rest = more ++ [x] := by
  rcases List.eq_nil_or_concat rest with rfl | ⟨more,z,rfl⟩
  · obtain ⟨hpast,he⟩ := List.append_inj' h rfl
    exact .inl ⟨hpast,List.singleton_inj.mp he,rfl⟩
  · rw [List.concat_eq_append,← List.cons_append,← List.append_assoc] at h
    obtain ⟨hpast,he⟩ := List.append_inj' h rfl
    obtain rfl := List.singleton_inj.mp he
    exact .inr ⟨more,hpast,List.concat_eq_append⟩

/-- What comes of a request, by what it does to the point and the cursor. -/
inductive Effect (b : Outbox) : Request → Reply → Outbox → Prop
  | held {payload : Bytes} {fragment : Int32} :
      Effect b (.push payload) (.held fragment) (b.extend [payload])
  | refused {payload : Bytes} : Effect b (.push payload) .refused b
  | late {window : Int32} {now : Nat} : Effect b (.establish window now) (.opened false) b
  | passed {fragment window known : Int32} {now : Nat} (wider : b.window ≤ known) :
      Effect b (.acknowledge fragment window now) (.released 0) { b with window := known }
  | acknowledged {fragment window known : Int32} {now count : Nat} (some : 0 < count)
      (ahead : b.lastAcked.toInt < fragment.toInt) (wider : b.window ≤ known) :
      Effect b (.acknowledge fragment window now) (.released count)
        { b with
          lastAcked := fragment
          window := known
          progress := now
          slots := b.slots.drop count }
  | transmitted {payload : Bytes} {minWindow : Int32} {now threshold : Nat}
      (wide : minWindow ≤ b.window) (next : (b.cursor + 1).toInt = b.cursor.toInt + 1)
      (highest : b.transmitted.highestSent.toInt = max (b.cursor.toInt + 1) b.highestSent.toInt) :
      Effect b (.next now minWindow threshold) (.acted (.transmit (b.cursor + 1) payload))
        b.transmitted
  | caught {minWindow : Int32} {now threshold : Nat} (none : b.cursor = b.lastAcked) :
      Effect b (.next now minWindow threshold) (.acted (.idle false))
        { b with lastSent := b.cursor, progress := now }
  | rewound {minWindow : Int32} {now threshold : Nat} (some : b.cursor ≠ b.lastAcked)
      (late : b.progress + threshold < now) :
      Effect b (.next now minWindow threshold) (.acted (.idle true))
        { b with lastSent := b.lastAcked, progress := now }
  | waited {minWindow : Int32} {now threshold : Nat} (some : b.cursor ≠ b.lastAcked)
      (early : now ≤ b.progress + threshold) :
      Effect b (.next now minWindow threshold) (.acted (.idle false))
        { b with lastSent := b.cursor }

theorem Keeps.effect_acknowledge (h : b.Keeps pushed) (fragment window : Int32) (now : Nat) :
    Effect b (.acknowledge fragment window now) (.released (b.acknowledge fragment window now).1)
      (b.acknowledge fragment window now).2 := by
  by_cases hw : b.lastAcked.toInt ≤ fragment.toInt ∧ fragment.toInt ≤ b.highestSent.toInt
  · rw [h.acknowledge_of_within window now hw.1 hw.2]
    by_cases he : fragment = b.lastAcked
    · obtain rfl := he
      simp only [Int.sub_self,Int.toNat_zero,if_true,List.drop_zero]
      exact .passed (widen_eq _ _).1
    · have hne : fragment.toInt ≠ b.lastAcked.toInt := fun hi => he (Int32.toInt_inj.mp hi)
      simp only [if_neg he]
      exact .acknowledged (by omega) (by omega) (widen_eq _ _).1
  · rw [h.acknowledge_of_outside window now (by omega)]
    exact .passed (Int32.le_refl _)

theorem effect_rest (b : Outbox) (now : Nat) (minWindow : Int32) (threshold : Nat) :
    Effect b (.next now minWindow threshold) (.acted (next.rest now threshold b b.cursor).1)
      (next.rest now threshold b b.cursor).2 := by
  unfold next.rest
  split
  · rename_i hnone
    exact .caught hnone
  · rename_i hsome
    split
    · exact .rewound hsome (by omega)
    · exact .waited hsome (by omega)

theorem Keeps.effect_next (h : b.Keeps pushed) (now : Nat) (minWindow : Int32) (threshold : Nat) :
    Effect b (.next now minWindow threshold) (.acted (b.next now minWindow threshold).1)
      (b.next now minWindow threshold).2 := by
  have hc := h.cursor_eq
  have ha := h.acked
  by_cases hopen : minWindow ≤ b.window ∧ b.cursor.toInt.toNat < pushed.length
  · have hlt : b.cursor.toInt < pushed.length := by omega
    rw [h.next_of_lt now threshold hopen.1 hopen.2]
    exact .transmitted hopen.1 (h.cursor_succ hlt) (h.highestSent_transmitted hlt)
  · rw [h.next_of_rest now threshold hopen]
    exact b.effect_rest now minWindow threshold

theorem Keeps.effect (h : b.Keeps pushed) (hserve : (b.serve q).2 = [(q,reply)]) :
    Effect b q reply (b.serve q).1 := by
  cases q with
  | push payload =>
    by_cases hfull : b.full = true
    · have hpush : b.push payload = none := if_pos hfull
      simp only [serve,hpush] at hserve ⊢
      simp only [List.cons.injEq,Prod.mk.injEq,true_and,and_true] at hserve
      subst hserve
      exact .refused
    · have hpush : b.push payload =
          some (b.lastAcked + Int32.ofNat (b.slots ++ [payload]).length,b.extend [payload]) :=
        if_neg hfull
      simp only [serve,hpush] at hserve ⊢
      simp only [List.cons.injEq,Prod.mk.injEq,true_and,and_true] at hserve
      subst hserve
      exact .held
  | acknowledge fragment window now =>
    obtain rfl : Reply.released (b.acknowledge fragment window now).1 = reply := by
      simpa [serve] using hserve
    exact h.effect_acknowledge fragment window now
  | establish window now =>
    simp only [serve,establish_of_established h.established] at hserve ⊢
    simp only [List.cons.injEq,Prod.mk.injEq,true_and,and_true] at hserve
    subst hserve
    exact .late
  | next now minWindow threshold =>
    obtain rfl : Reply.acted (b.next now minWindow threshold).1 = reply := by
      simpa [serve] using hserve
    exact h.effect_next now minWindow threshold

namespace Effect

/-- The cursor does not go back unless the request says so, and what is sent takes it along. -/
theorem lastSent_le (he : Effect b q reply c) (hk : b.Keeps pushed)
    (hno : reply ≠ .acted (.idle true)) :
    b.lastSent.toInt ≤ c.lastSent.toInt ∧
      ∀ e ∈ sent [(q,reply)], e.1.toInt ≤ c.lastSent.toInt := by
  have hc := hk.cursor_eq
  cases he with
  | transmitted _ next highest =>
    have hlast : b.transmitted.lastSent = b.cursor + 1 := rfl
    simp only [Log.sent,List.filterMap_cons,List.filterMap_nil,List.mem_singleton,hlast]
    refine ⟨by omega,?_⟩
    rintro e rfl
    exact Int.le_refl _
  | caught | waited =>
    simp only [Log.sent,List.filterMap_cons,List.filterMap_nil,List.not_mem_nil]
    exact ⟨by omega,fun _ hmem => hmem.elim⟩
  | rewound => exact absurd rfl hno
  | _ => exact ⟨Int.le_refl _,by simp [Log.sent]⟩

theorem toInt_sent {fragment : Int32} {payload : Bytes}
    (he : Effect b q (.acted (.transmit fragment payload)) c) :
    fragment.toInt = b.cursor.toInt + 1 := by
  cases he with
  | transmitted _ next highest => exact next

/-- While nothing is sent a cursor that the point has reached stays behind it. -/
theorem lastSent_le_lastAcked (he : Effect b q reply c) (hk : b.Keeps pushed)
    (hno : sent [(q,reply)] = []) (h : b.lastSent.toInt ≤ b.lastAcked.toInt) :
    c.lastSent.toInt ≤ c.lastAcked.toInt := by
  have hc := hk.cursor_eq
  cases he with
  | acknowledged _ ahead => exact Int.le_trans h (Int.le_of_lt ahead)
  | transmitted _ next highest => cases hno
  | caught none => exact Int.le_of_eq (congrArg Int32.toInt none)
  | rewound => exact Int.le_refl _
  | waited =>
    change b.cursor.toInt ≤ b.lastAcked.toInt
    omega
  | _ => exact h

/-- The wait for an acknowledgement is counted anew only from the time of the request. -/
theorem progress_eq (he : Effect b q reply c) :
    c.progress = b.progress ∨ q.reading = some c.progress := by
  cases he with
  | acknowledged | caught | rewound => exact .inr rfl
  | _ => exact .inl rfl

end Effect

theorem mem_range'_ofNat_iff {n : Nat} (hn : n ≤ fragmentLimit) {fragment : Int32} :
    fragment ∈ (List.range' 1 n).map Int32.ofNat ↔ 1 ≤ fragment.toInt ∧ fragment.toInt ≤ n := by
  simp only [List.mem_map,List.mem_range'_1]
  constructor
  · rintro ⟨i,hi,rfl⟩
    rw [toInt_ofNat (by omega)]
    omega
  · intro h
    refine ⟨fragment.toInt.toNat,by omega,Int32.toInt_inj.mp ?_⟩
    rw [toInt_ofNat (by omega)]
    omega

theorem eraseDups_concat {α : Type} [DecidableEq α] (xs : List α) (x : α) :
    (xs ++ [x]).eraseDups = if x ∈ xs then xs.eraseDups else xs.eraseDups ++ [x] := by
  rw [List.eraseDups_append]
  by_cases hx : x ∈ xs <;> simp [List.removeAll,List.eraseDups_cons,hx]

/-- What is sent for the first time has the number after the highest one sent. -/
theorem Effect.eraseDups_sent (he : Effect b q reply c) (hk : b.Keeps pushed)
    (h : ((sent log).map (·.1)).eraseDups =
      (List.range' 1 b.highestSent.toInt.toNat).map Int32.ofNat) :
    ((sent (log ++ [(q,reply)])).map (·.1)).eraseDups =
      (List.range' 1 c.highestSent.toInt.toNat).map Int32.ofNat := by
  have hc := hk.cursor_eq
  have h₁ := hk.sent_le
  have h₂ := hk.acked_le
  have h₃ := hk.highest_le
  have h₄ := hk.few
  have h₅ := hk.acked
  rw [sent_append,List.map_append]
  cases he with
  | transmitted _ next highest =>
    have hmem : b.cursor + 1 ∈ (sent log).map (·.1) ↔
        b.cursor.toInt + 1 ≤ b.highestSent.toInt := by
      rw [← List.mem_eraseDups,h,mem_range'_ofNat_iff (by omega)]
      omega
    simp only [Log.sent,List.filterMap_cons,List.filterMap_nil,List.map_cons,List.map_nil] at hmem h ⊢
    rw [eraseDups_concat,h]
    by_cases hold : b.cursor.toInt + 1 ≤ b.highestSent.toInt
    · rw [if_pos (hmem.mpr hold),highest,Int.max_eq_right hold]
    · have hplace : b.transmitted.highestSent.toInt.toNat = b.highestSent.toInt.toNat + 1 := by omega
      have hnumber : b.cursor + 1 = Int32.ofNat (1 + b.highestSent.toInt.toNat) := by
        apply Int32.toInt_inj.mp
        rw [toInt_ofNat (by omega)]
        omega
      rw [if_neg fun hm => hold (hmem.mp hm),hplace,List.range'_1_concat,List.map_append,hnumber]
      rfl
  | _ => simpa [Log.sent] using h

/-- Clock readings do not go back, from the handshake on. -/
def Timely (opened : Nat) (requests : List Request) : Prop :=
  (opened :: requests.filterMap Request.reading).Pairwise (· ≤ ·)

theorem Timely.of_append {opened : Nat} {requests more : List Request}
    (h : Timely opened (requests ++ more)) : Timely opened requests := by
  rw [Timely,List.filterMap_append,← List.cons_append] at h
  exact (List.pairwise_append.mp h).1

/-- The times from which the wait for an acknowledgement is counted: the handshake, an
acknowledgement that releases something, a rest with the cursor at the point, and one at which the
cursor goes back there. -/
inductive Renewed (b : Outbox) (opened : Nat) (log : Log) : Nat → Prop
  | opened : Renewed b opened log opened
  | acknowledged {fragment window : Int32} {now count : Nat}
      (entry : (Request.acknowledge fragment window now,Reply.released count) ∈ log)
      (some : 0 < count) : Renewed b opened log now
  | caught {past rest : Log} {minWindow : Int32} {now threshold : Nat}
      (entry : log = past ++ (.next now minWindow threshold,.acted (.idle false)) :: rest)
      (none : (b.after past).cursor = (b.after past).lastAcked) : Renewed b opened log now
  | rewound {minWindow : Int32} {now threshold : Nat}
      (entry : (Request.next now minWindow threshold,Reply.acted (.idle true)) ∈ log) :
      Renewed b opened log now

/-- A time from which the wait is counted is an earlier one, or that of the last request. -/
theorem Renewed.of_concat {opened t : Nat} (h : Renewed b opened (log ++ [(q,reply)]) t)
    (he : Effect (b.after log) q reply c) : Renewed b opened log t ∨ c.progress = t := by
  cases h with
  | opened => exact .inl .opened
  | acknowledged entry some =>
    rcases List.mem_append.mp entry with hold | hnew
    · exact .inl (.acknowledged hold some)
    · obtain ⟨rfl,rfl⟩ := Prod.mk.inj (List.mem_singleton.mp hnew)
      cases he with
      | passed => exact absurd some (Nat.lt_irrefl 0)
      | acknowledged => exact .inr rfl
  | caught entry none =>
    rcases split_concat entry with ⟨rfl,hentry,-⟩ | ⟨more,rfl,-⟩
    · obtain ⟨rfl,rfl⟩ := Prod.mk.inj hentry
      cases he with
      | caught => exact .inr rfl
      | waited some => exact absurd none some
    · exact .inl (.caught rfl none)
  | rewound entry =>
    rcases List.mem_append.mp entry with hold | hnew
    · exact .inl (.rewound hold)
    · obtain ⟨rfl,rfl⟩ := Prod.mk.inj (List.mem_singleton.mp hnew)
      cases he with
      | rewound => exact .inr rfl

structure Opened (b : Outbox) (opened : Nat) : Prop where
  steady : b.Steady b.slots
  highest : b.highestSent = 0
  progress : b.progress = opened

theorem length_slots_serve (h : b.slots.length ≤ ringCapacity) (q : Request) :
    (b.serve q).1.slots.length ≤ ringCapacity := by
  cases q with
  | push payload =>
    by_cases hroom : 0 < b.room
    · have hextend := b.room_extend [payload]
      simp only [serve,push_of_room hroom,slots_extend,List.length_append,List.length_singleton]
      unfold room at hroom
      omega
    · have hfull : b.push payload = none := if_pos (by
        unfold room at hroom
        simp only [full,decide_eq_true_eq]
        omega)
      simpa only [serve,hfull] using h
  | acknowledge fragment window now =>
    simp only [serve,Outbox.acknowledge]
    split
    · exact h
    · split
      · exact h
      · simp only [List.length_drop]
        omega
  | establish window now =>
    by_cases hopen : b.established = true
    · simpa only [serve,establish,if_pos hopen] using h
    · simpa only [serve,establish,if_neg hopen] using h
  | next now minWindow threshold =>
    simp only [serve,next,next.rest]
    split
    · split
      · exact h
      · split
        · exact h
        · split <;> exact h
    · split
      · exact h
      · split <;> exact h

theorem opened_of_establish {made opened : Nat} {early : List Request} {window : Int32}
    (h : (chain serve (start made) early).1.establish window opened = some b) :
    b.Opened opened := by
  have hroom : (chain serve (start made) early).1.slots.length ≤ ringCapacity :=
    chain_induct (P := fun c : Outbox => c.slots.length ≤ ringCapacity) (Nat.zero_le _)
      (fun _ hc q => length_slots_serve hc q) early
  have hz := Int32.toInt_zero
  rw [establish] at h
  split at h
  · cases h
  · obtain rfl := Option.some.inj h
    refine ⟨⟨?_,Int.le_add_of_nonneg_right (by decide)⟩,rfl,rfl⟩
    exact {
      acked := Int.le_of_eq hz.symm
      sent := Int.le_of_eq hz.symm
      sent_le := Int.le_refl _
      acked_le := Int.le_refl _
      highest_le := Int.le_trans (Int.le_of_eq hz) (Int.natCast_nonneg _)
      slots := rfl
      room := hroom
      few := Nat.lt_of_le_of_lt hroom (by decide) }

theorem Opened.steady_after {opened : Nat} (h : b.Opened opened) (hlogs : b.Logs log)
    (hfew : (b.slots ++ payloads log).length < fragmentLimit) :
    (b.after log).Steady (b.slots ++ payloads log) := by
  have hruns := h.steady.runs (log.map (·.1)) (by rwa [hlogs])
  rw [hlogs] at hruns
  exact hruns.1

/-- What holds right after the handshake and survives every effect holds of every log. -/
theorem Opened.induct {opened : Nat} {P : Log → Prop} (h : b.Opened opened) (hstart : P [])
    (hstep : ∀ log q reply c, b.after (log ++ [(q,reply)]) = c →
      (b.after log).Keeps (b.slots ++ payloads log) → Effect (b.after log) q reply c → P log →
      P (log ++ [(q,reply)]))
    (hlogs : b.Logs log) (hfew : (b.slots ++ payloads log).length < fragmentLimit) : P log := by
  induction log using List.reverseRecOn with
  | nil => exact hstart
  | append_singleton log e ih =>
    obtain ⟨q,reply⟩ := e
    obtain ⟨hbefore,hserve⟩ := logs_concat_iff.mp hlogs
    have hfew' : (b.slots ++ payloads log).length < fragmentLimit := by
      rw [payloads_append,← List.append_assoc,List.length_append] at hfew
      omega
    have hk := (h.steady_after hbefore hfew').keeps
    exact hstep log q reply _ (b.after_concat log q reply) hk (hk.effect hserve) (ih hbefore hfew')

/-- What the log of an outbox says about its cursor. -/
structure Tracks (b : Outbox) (opened : Nat) (log : Log) : Prop where
  firsts : ((sent log).map (·.1)).eraseDups =
    (List.range' 1 (b.after log).highestSent.toInt.toNat).map Int32.ofNat
  recent : ∀ past since, log = past ++ since → (∀ q, (q,.acted (.idle true)) ∉ since) →
    ∀ e ∈ sent since, e.1.toInt ≤ (b.after log).lastSent.toInt
  behind : ∀ past q since, log = past ++ (q,.acted (.idle true)) :: since → sent since = [] →
    (b.after log).lastSent.toInt ≤ (b.after log).lastAcked.toInt
  clock : (b.after log).progress ∈ opened :: (log.map (·.1)).filterMap Request.reading
  latest : ∀ t, Renewed b opened log t → t ≤ (b.after log).progress

theorem Opened.tracks_nil {opened : Nat} (h : b.Opened opened) : b.Tracks opened [] where
  firsts := by
    have hz : (b.after []).highestSent.toInt.toNat = 0 := by
      change b.highestSent.toInt.toNat = 0
      rw [h.highest]
      rfl
    rw [hz]
    rfl
  recent := by
    intro past since hsplit _ e he
    obtain ⟨rfl,rfl⟩ := List.append_eq_nil_iff.mp hsplit.symm
    simp [sent] at he
  behind := by simp
  clock := List.mem_cons.mpr (.inl h.progress)
  latest := by
    intro t ht
    change t ≤ b.progress
    cases ht with
    | opened => exact Nat.le_of_eq h.progress.symm
    | acknowledged entry => simp at entry
    | caught entry => simp at entry
    | rewound entry => simp at entry

theorem Tracks.concat {opened : Nat} (h : b.Tracks opened log)
    (hk : (b.after log).Keeps pushed) (he : Effect (b.after log) q reply c)
    (hc : b.after (log ++ [(q,reply)]) = c)
    (htime : Timely opened ((log ++ [(q,reply)]).map (·.1))) :
    b.Tracks opened (log ++ [(q,reply)]) where
  firsts := by
    rw [hc]
    exact he.eraseDups_sent hk h.firsts
  recent := by
    intro past since hsplit hno e hmem
    rw [hc]
    rcases List.eq_nil_or_concat since with rfl | ⟨more,x,rfl⟩
    · simp [sent] at hmem
    · rw [List.concat_eq_append] at hsplit hno hmem
      rw [← List.append_assoc] at hsplit
      obtain ⟨hlog,hx⟩ := List.append_inj' hsplit rfl
      obtain rfl := List.singleton_inj.mp hx
      have hreply : reply ≠ .acted (.idle true) := by
        rintro rfl
        exact hno q (List.mem_append_right _ (List.mem_singleton_self _))
      obtain ⟨hle,hlast⟩ := he.lastSent_le hk hreply
      rw [sent_append] at hmem
      rcases List.mem_append.mp hmem with hold | hnew
      · have hbefore := h.recent past more hlog
          (fun q' hq' => hno q' (List.mem_append_left _ hq')) e hold
        exact Int.le_trans hbefore hle
      · exact hlast e hnew
  behind := by
    intro past q' since hsplit hno
    rw [hc]
    rcases split_concat hsplit with ⟨-,hx,-⟩ | ⟨more,hlog,rfl⟩
    · obtain ⟨rfl,rfl⟩ := Prod.mk.inj hx
      cases he with
      | rewound => exact Int.le_refl _
    · rw [sent_append] at hno
      obtain ⟨hold,hnew⟩ := List.append_eq_nil_iff.mp hno
      exact he.lastSent_le_lastAcked hk hnew (h.behind past q' more hlog hold)
  clock := by
    rw [hc,List.map_append,List.filterMap_append,← List.cons_append]
    rcases he.progress_eq with hsame | hnow
    · rw [hsame]
      exact List.mem_append_left _ h.clock
    · apply List.mem_append_right
      simp [hnow]
  latest := by
    intro t ht
    rw [hc]
    rcases ht.of_concat he with hold | rfl
    · have hle := h.latest t hold
      rcases he.progress_eq with hsame | hnow
      · omega
      · rw [Timely,List.map_append,List.filterMap_append,← List.cons_append] at htime
        have hafter := (List.pairwise_append.mp htime).2.2 _ h.clock c.progress (by simp [hnow])
        omega
    · exact Nat.le_refl _

theorem Opened.tracks {opened : Nat} (h : b.Opened opened) (hlogs : b.Logs log)
    (htime : Timely opened (log.map (·.1)))
    (hfew : (b.slots ++ payloads log).length < fragmentLimit) : b.Tracks opened log := by
  refine h.induct (P := fun log => Timely opened (log.map (·.1)) → b.Tracks opened log)
    (fun _ => h.tracks_nil) ?_ hlogs hfew htime
  intro log q reply c hc hk he ih htime
  have hbefore : Timely opened (log.map (·.1)) := by
    rw [List.map_append] at htime
    exact htime.of_append
  exact (ih hbefore).concat hk he hc htime

/-- What a log says about when payloads are sent, for the first time and again. -/
structure Disciplined (b : Outbox) (opened : Nat) (log : Log) : Prop where
  fresh : ∀ past q fragment payload rest,
    log = past ++ (q,.acted (.transmit fragment payload)) :: rest →
    (b.after past).acked fragment = false
  firsts : ∃ n, ((sent log).map (·.1)).eraseDups = (List.range' 1 n).map Int32.ofNat
  spaced : ∀ past q fragment payload since q' payload' rest,
    log = past ++ (q,.acted (.transmit fragment payload)) :: since ++
      (q',.acted (.transmit fragment payload')) :: rest →
    ∃ q'', (q'',.acted (.idle true)) ∈ since
  /-- The cursor goes back only when something that was sent is not acknowledged, and more than the
  threshold after all times from which the wait for that is counted. -/
  patient : ∀ past now minWindow threshold rest,
    log = past ++ (.next now minWindow threshold,.acted (.idle true)) :: rest →
    (∃ e ∈ sent past, (b.after past).acked e.1 = false) ∧
      ∀ t, Renewed b opened past t → t + threshold < now
  resumes : ∀ past q since q' fragment payload rest,
    log = past ++ (q,.acted (.idle true)) :: since ++
      (q',.acted (.transmit fragment payload)) :: rest → sent since = [] →
    fragment.toInt =
      (b.after (past ++ (q,.acted (.idle true)) :: since)).lastAcked.toInt + 1

theorem Opened.tracks_at {opened : Nat} (h : b.Opened opened) {past rest : Log}
    (hlogs : b.Logs (past ++ (q,reply) :: rest))
    (htime : Timely opened ((past ++ (q,reply) :: rest).map (·.1)))
    (hfew : (b.slots ++ payloads (past ++ (q,reply) :: rest)).length < fragmentLimit) :
    b.Tracks opened past ∧ (b.after past).Keeps (b.slots ++ payloads past) ∧
      ∃ c, Effect (b.after past) q reply c := by
  obtain ⟨hpast,hserve⟩ := hlogs.at
  rw [List.map_append] at htime
  rw [payloads_append,← List.append_assoc,List.length_append] at hfew
  have hfew' : (b.slots ++ payloads past).length < fragmentLimit := by omega
  have hk := (h.steady_after hpast hfew').keeps
  exact ⟨h.tracks hpast htime.of_append hfew',hk,_,hk.effect hserve⟩

theorem Opened.disciplined {opened : Nat} (h : b.Opened opened) (hlogs : b.Logs log)
    (htime : Timely opened (log.map (·.1)))
    (hfew : (b.slots ++ payloads log).length < fragmentLimit) : b.Disciplined opened log where
  fresh := by
    rintro past q fragment payload rest rfl
    obtain ⟨-,hk,c,he⟩ := h.tracks_at hlogs htime hfew
    have hnumber := he.toInt_sent
    have hc := hk.cursor_eq
    have ha := hk.acked
    refine Bool.eq_false_iff.mpr fun hacked => ?_
    have hle := (hk.acked_iff (by omega)).mp hacked
    omega
  firsts := ⟨_,(h.tracks hlogs htime hfew).firsts⟩
  spaced := by
    rintro past q fragment payload since q' payload' rest rfl
    obtain ⟨htracks,hk,c,he⟩ := h.tracks_at hlogs htime hfew
    have hnumber := he.toInt_sent
    have hc := hk.cursor_eq
    by_contra hno
    rw [not_exists] at hno
    have hle := htracks.recent past ((q,.acted (.transmit fragment payload)) :: since) rfl
      (fun q'' hmem => (List.mem_cons.mp hmem).elim (fun he => by cases he) (hno q''))
      (fragment,payload) (by simp [sent])
    simp only at hle
    omega
  patient := by
    rintro past now minWindow threshold rest rfl
    obtain ⟨htracks,hk,c,he⟩ := h.tracks_at hlogs htime hfew
    have hc := hk.cursor_eq
    have h₁ := hk.acked
    have h₂ := hk.sent_le
    have h₃ := hk.highest_le
    have h₄ := hk.few
    cases he with
    | rewound some late =>
      have hne : (b.after past).cursor.toInt ≠ (b.after past).lastAcked.toInt :=
        fun he => some (Int32.toInt_inj.mp he)
      have hmem : (b.after past).lastSent ∈ (sent past).map (·.1) := by
        rw [← List.mem_eraseDups,htracks.firsts,mem_range'_ofNat_iff (by omega)]
        omega
      obtain ⟨e,hsent,hlast⟩ := List.mem_map.mp hmem
      refine ⟨⟨e,hsent,Bool.eq_false_iff.mpr fun hacked => ?_⟩,fun t ht => ?_⟩
      · rw [hlast] at hacked
        have hle := (hk.acked_iff (by omega)).mp hacked
        omega
      · have hle := htracks.latest t ht
        omega
  resumes := by
    rintro past q since q' fragment payload rest rfl hno
    obtain ⟨htracks,hk,c,he⟩ := h.tracks_at hlogs htime hfew
    have hnumber := he.toInt_sent
    have hc := hk.cursor_eq
    have hbehind := htracks.behind past q since rfl hno
    omega

/-- From its handshake on an outbox sends payloads in order, and again only what was sent and not
acknowledged for too long. -/
theorem discipline_along_run {made opened : Nat} {early requests : List Request} {window : Int32}
    (hopen : (chain serve (start made) early).1.establish window opened = some b)
    (htime : Timely opened requests)
    (hfew : (b.slots ++ payloads (chain serve b requests).2).length < fragmentLimit) :
    b.Disciplined opened (chain serve b requests).2 := by
  refine (opened_of_establish hopen).disciplined (b.logs_chain requests) ?_ hfew
  rwa [map_fst_chain_serve]

/-- Two payloads of which the first is acknowledged when the cursor has just gone back to before
it. -/
def resending : List Request :=
  [.push [98],.next 0 1 5,.next 1 1 5,.next 5 1 5,.next 6 1 5,.acknowledge 1 8 7,.next 7 1 5,
    .next 7 1 5]

theorem discipline_along_run_resending :
    ∃ b, (chain serve (start 0) [.push [97]]).1.establish 8 0 = some b ∧ Timely 0 resending ∧
      (b.slots ++ payloads (chain serve b resending).2).length < fragmentLimit ∧
      b.Disciplined 0 (chain serve b resending).2 ∧
      sent (chain serve b resending).2 = [(1,[97]),(2,[98]),(2,[98])] := by
  have hopen : (chain serve (start 0) [.push [97]]).1.establish 8 0 =
      some ⟨0,8,0,[[97]],0,0⟩ := rfl
  have htime : Timely 0 resending := by
    unfold Timely
    decide
  exact ⟨_,hopen,htime,by decide +kernel,discipline_along_run hopen htime (by decide +kernel),
    by decide +kernel⟩

end Outbox
end ReliableTransport
