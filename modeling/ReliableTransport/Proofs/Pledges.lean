import ReliableTransport.Proofs.Ties

/-! What the calls to send amount to. A call pushes the pieces of its data one after the other, and
waits for the last of them (`Pledges.waiting`); one that is answered that its data was delivered has
pushed all of it, and all of it was acknowledged (`Pledges.delivered`). -/
namespace ReliableTransport

open Connection (pushes payloads)

namespace Connection

/-- The payloads that a call has pushed. -/
def pushedBy (k : CallId) (ds : List Deed) : List Bytes :=
  ((pushes ds).filter fun e => e.1 = k).map (·.2)

/-- What a call has pushed is among the first `n` payloads. -/
def Within (k : CallId) (ds : List Deed) (n : Int) : Prop :=
  ∀ (i : Nat) piece, (pushes ds)[i]? = some (k,piece) → (i : Int) < n

def Among (last : Int32) (ds : List Deed) : Prop :=
  0 ≤ last.toInt ∧ last.toInt ≤ (payloads ds).length

section

variable {k : CallId} {ds es : List Deed} {pieces : List Bytes}

theorem Among.append {last : Int32} (h : Among last ds) (es : List Deed) :
    Among last (ds ++ es) := by
  refine ⟨h.1,Int.le_trans h.2 ?_⟩
  rw [payloads_append,List.length_append]
  omega

theorem length_pushes (ds : List Deed) : (pushes ds).length = (payloads ds).length := by
  simp [payloads]

theorem pushedBy_append_self (h : pushes es = pieces.map fun piece => (k,piece)) :
    pushedBy k (ds ++ es) = pushedBy k ds ++ pieces := by
  simp [pushedBy,h,List.filter_map,Function.comp_def]

theorem pushedBy_append_of_ne {j : CallId} (hj : j ≠ k)
    (h : pushes es = pieces.map fun piece => (k,piece)) :
    pushedBy j (ds ++ es) = pushedBy j ds := by
  have hne : ¬ k = j := fun he => hj he.symm
  simp [pushedBy,h,List.filter_map,Function.comp_def,hne]

theorem pushedBy_eq_nil (h : ∀ e ∈ pushes ds, e.1 ≠ k) : pushedBy k ds = [] := by
  rw [pushedBy,List.filter_eq_nil_iff.mpr fun e he => by simpa using h e he]
  rfl

theorem Within.mono {n m : Int} (h : Within k ds n) (hle : n ≤ m) : Within k ds m :=
  fun i piece hi => Int.lt_of_lt_of_le (h i piece hi) hle

theorem within_length (k : CallId) (ds : List Deed) : Within k ds (payloads ds).length := by
  intro i piece hi
  have hlt := (List.getElem?_eq_some_iff.mp hi).1
  rw [length_pushes] at hlt
  omega

theorem Within.append_of_ne {j : CallId} {n : Int} (h : Within j ds n) (hj : j ≠ k)
    (hp : pushes es = pieces.map fun piece => (k,piece)) : Within j (ds ++ es) n := by
  intro i piece hi
  rw [pushes_append,List.getElem?_append] at hi
  split at hi
  · exact h i piece hi
  · rw [hp,List.getElem?_map] at hi
    obtain ⟨q,_,hq⟩ := Option.map_eq_some_iff.mp hi
    exact absurd (congrArg Prod.fst hq).symm hj

end

end Connection

namespace Network

open Connection (pushedBy Within Among)

/-- What the calls of a sender amount to on connection `c`, of `calls` that were made, while those
in `held` wait and the first `point` payloads are acknowledged. -/
structure Pledges (c : ConnRef) (calls : Nat) (held : List (CallId × Sender.Call)) (point : Int)
    (log : List Note) : Prop where
  pushed : ∀ e ∈ pushes (said c log), e.1 < calls
  asked : ∀ k d data, .asked k d data ∈ log → k < calls
  once : ∀ k d data e more, .asked k d data ∈ log → .asked k e more ∈ log → d = e ∧ data = more
  older : ∀ e ∈ held, e.1 < calls
  about : ∀ e ∈ held, ∀ d data, .asked e.1 d data ∈ log → e.2.conn = d
  settled : ∀ k result, .settled k result ∈ log → k < calls ∧ ∀ e ∈ held, e.1 ≠ k
  waiting : ∀ k rest last, (k,.send c rest last) ∈ held → ∃ data, .asked k c data ∈ log ∧
    pushedBy k (said c log) ++ rest = chunks Frame.maxPayload data ∧ Among last (said c log) ∧
    Within k (said c log) last.toInt
  delivered : ∀ k data, .settled k .delivered ∈ log → .asked k c data ∈ log →
    pushedBy k (said c log) = chunks Frame.maxPayload data ∧ Within k (said c log) point

namespace Pledges

variable {c : ConnRef} {calls : Nat} {held : List (CallId × Sender.Call)} {point : Int}
  {log notes : List Note} {k : CallId} {pieces : List Bytes}

theorem weaken (h : Pledges c calls held point log) {more : Nat}
    {fewer : List (CallId × Sender.Call)} {further : Int} (hc : calls ≤ more)
    (hh : ∀ e ∈ fewer, e ∈ held) (hp : point ≤ further) : Pledges c more fewer further log where
  pushed := fun e he => Nat.lt_of_lt_of_le (h.pushed e he) hc
  asked := fun k d data ha => Nat.lt_of_lt_of_le (h.asked k d data ha) hc
  once := h.once
  older := fun e he => Nat.lt_of_lt_of_le (h.older e (hh e he)) hc
  about := fun e he => h.about e (hh e he)
  settled := by
    intro k result hs
    obtain ⟨hk,hne⟩ := h.settled k result hs
    exact ⟨Nat.lt_of_lt_of_le hk hc,fun e he => hne e (hh e he)⟩
  waiting := fun k rest last hw => h.waiting k rest last (hh _ hw)
  delivered := by
    intro k data hs ha
    obtain ⟨hall,hw⟩ := h.delivered k data hs ha
    exact ⟨hall,hw.mono hp⟩

theorem hold (h : Pledges c calls held point log) {call : Sender.Call} (ho : k < calls)
    (hs : ∀ result, .settled k result ∉ log)
    (ha : ∀ d data, .asked k d data ∈ log → call.conn = d)
    (hw : ∀ rest last, call = .send c rest last → ∃ data, .asked k c data ∈ log ∧
      pushedBy k (said c log) ++ rest = chunks Frame.maxPayload data ∧ Among last (said c log) ∧
      Within k (said c log) last.toInt) :
    Pledges c calls ((k,call) :: held) point log where
  pushed := h.pushed
  asked := h.asked
  once := h.once
  older := by
    intro e he
    rcases List.mem_cons.mp he with rfl | he
    · exact ho
    · exact h.older e he
  about := by
    intro e he d data hasked
    rcases List.mem_cons.mp he with rfl | he
    · exact ha d data hasked
    · exact h.about e he d data hasked
  settled := by
    intro j result hj
    obtain ⟨hlt,hne⟩ := h.settled j result hj
    refine ⟨hlt,fun e he => ?_⟩
    rcases List.mem_cons.mp he with rfl | he
    · rintro rfl
      exact hs result hj
    · exact hne e he
  waiting := by
    intro j rest last hj
    rcases List.mem_cons.mp hj with hj | hj
    · obtain ⟨rfl,rfl⟩ := Prod.mk.inj hj
      exact hw rest last rfl
    · exact h.waiting j rest last hj
  delivered := h.delivered

theorem ask (h : Pledges c calls held point log) (d : ConnRef) (data : Bytes) :
    Pledges c (calls + 1) held point (log ++ [.asked calls d data]) := by
  have hnew : ∀ k d' data', .asked k d' data' ∈ log ++ [.asked calls d data] →
      .asked k d' data' ∈ log ∨ (k = calls ∧ d' = d ∧ data' = data) := by
    intro k d' data' ha
    rcases List.mem_append.mp ha with ha | ha
    · exact .inl ha
    · rw [List.mem_singleton,Note.asked.injEq] at ha
      exact .inr ha
  have hsaid : said c (log ++ [.asked calls d data]) = said c log := by
    rw [said_append]
    exact List.append_nil _
  exact {
    pushed := by
      rw [hsaid]
      exact fun e he => Nat.lt_succ_of_lt (h.pushed e he)
    asked := by
      intro k d' data' ha
      rcases hnew k d' data' ha with ha | ⟨rfl,_⟩
      · exact Nat.lt_succ_of_lt (h.asked k d' data' ha)
      · exact Nat.lt_succ_self k
    once := by
      intro k d' data' e more ha he
      rcases hnew k d' data' ha with ha | ⟨rfl,rfl,rfl⟩
      · rcases hnew k e more he with he | ⟨hk,_⟩
        · exact h.once k d' data' e more ha he
        · exact absurd (h.asked k d' data' ha) (by rw [hk]; exact Nat.lt_irrefl calls)
      · rcases hnew k e more he with he | ⟨_,rfl,rfl⟩
        · exact absurd (h.asked k e more he) (Nat.lt_irrefl k)
        · exact ⟨rfl,rfl⟩
    older := fun e he => Nat.lt_succ_of_lt (h.older e he)
    about := by
      intro e he d' data' ha
      rcases hnew e.1 d' data' ha with ha | ⟨hk,_⟩
      · exact h.about e he d' data' ha
      · exact absurd (h.older e he) (by rw [hk]; exact Nat.lt_irrefl calls)
    settled := by
      intro k result hs
      have hs : .settled k result ∈ log := by simpa using hs
      obtain ⟨hk,hne⟩ := h.settled k result hs
      exact ⟨Nat.lt_succ_of_lt hk,hne⟩
    waiting := by
      intro k rest last hw
      obtain ⟨data',ha,hrest⟩ := h.waiting k rest last hw
      rw [hsaid]
      exact ⟨data',List.mem_append_left _ ha,hrest⟩
    delivered := by
      intro k data' hs ha
      have hs : .settled k .delivered ∈ log := by simpa using hs
      rw [hsaid]
      rcases hnew k c data' ha with ha | ⟨hk,_⟩
      · exact h.delivered k data' hs ha
      · exact absurd (h.settled k .delivered hs).1 (by rw [hk]; exact Nat.lt_irrefl calls) }

theorem push (h : Pledges c calls held point log)
    (hp : pushes (said c notes) = pieces.map fun piece => (k,piece))
    (hk : pieces ≠ [] → k < calls ∧ (∀ e ∈ held, e.1 ≠ k) ∧ ∀ result, .settled k result ∉ log)
    (ha : ∀ j d data, .asked j d data ∉ notes) (hs : ∀ j result, .settled j result ∉ notes) :
    Pledges c calls held point (log ++ notes) := by
  have hasked : ∀ j d data, .asked j d data ∈ log ++ notes → .asked j d data ∈ log := by
    intro j d data hj
    exact (List.mem_append.mp hj).resolve_right (ha j d data)
  have hsettled : ∀ j result, .settled j result ∈ log ++ notes → .settled j result ∈ log := by
    intro j result hj
    exact (List.mem_append.mp hj).resolve_right (hs j result)
  have hby : ∀ j, (pieces ≠ [] → j ≠ k) →
      pushedBy j (said c (log ++ notes)) = pushedBy j (said c log) := by
    intro j hj
    rw [said_append]
    by_cases hn : pieces = []
    · subst hn
      simp [pushedBy,hp]
    · exact Connection.pushedBy_append_of_ne (hj hn) hp
  have hwithin : ∀ (j : CallId) (n : Int), (pieces ≠ [] → j ≠ k) → Within j (said c log) n →
      Within j (said c (log ++ notes)) n := by
    intro j n hj hw
    rw [said_append]
    by_cases hn : pieces = []
    · subst hn
      intro i piece hi
      rw [Connection.pushes_append,hp,List.map_nil,List.append_nil] at hi
      exact hw i piece hi
    · exact hw.append_of_ne (hj hn) hp
  exact {
    pushed := by
      intro e he
      rw [said_append,Connection.pushes_append,List.mem_append,hp] at he
      rcases he with he | he
      · exact h.pushed e he
      · obtain ⟨piece,hm,rfl⟩ := List.mem_map.mp he
        exact (hk (List.ne_nil_of_mem hm)).1
    asked := fun j d data hj => h.asked j d data (hasked j d data hj)
    once := fun j d data e more hj hm =>
      h.once j d data e more (hasked j d data hj) (hasked j e more hm)
    older := h.older
    about := fun e he d data hj => h.about e he d data (hasked _ _ _ hj)
    settled := fun j result hj => h.settled j result (hsettled j result hj)
    waiting := by
      intro j rest last hw
      have hj : pieces ≠ [] → j ≠ k := fun hn => (hk hn).2.1 _ hw
      obtain ⟨data,hask,hrest,hlast,hin⟩ := h.waiting j rest last hw
      rw [hby j hj]
      refine ⟨data,List.mem_append_left _ hask,hrest,?_,hwithin j _ hj hin⟩
      rw [said_append]
      exact hlast.append _
    delivered := by
      intro j data hd hask
      have hd := hsettled j .delivered hd
      have hj : pieces ≠ [] → j ≠ k := by
        rintro hn rfl
        exact (hk hn).2.2 _ hd
      obtain ⟨hall,hin⟩ := h.delivered j data hd (hasked j c data hask)
      rw [hby j hj]
      exact ⟨hall,hwithin j _ hj hin⟩ }

theorem settle (h : Pledges c calls held point log) {result : Sender.Result} (hk : k < calls)
    (hne : ∀ e ∈ held, e.1 ≠ k)
    (hd : result = .delivered → ∀ data, .asked k c data ∈ log →
      pushedBy k (said c log) = chunks Frame.maxPayload data ∧ Within k (said c log) point) :
    Pledges c calls held point (log ++ [.settled k result]) := by
  have hsaid : said c (log ++ [.settled k result]) = said c log := by
    rw [said_append]
    exact List.append_nil _
  have hasked : ∀ j d data, .asked j d data ∈ log ++ [.settled k result] →
      .asked j d data ∈ log := by
    intro j d data hj
    simpa using hj
  exact {
    pushed := by
      rw [hsaid]
      exact h.pushed
    asked := fun j d data hj => h.asked j d data (hasked j d data hj)
    once := fun j d data e more hj hm =>
      h.once j d data e more (hasked j d data hj) (hasked j e more hm)
    older := h.older
    about := fun e he d data hj => h.about e he d data (hasked _ _ _ hj)
    settled := by
      intro j result' hj
      rcases List.mem_append.mp hj with hj | hj
      · exact h.settled j result' hj
      · rw [List.mem_singleton,Note.settled.injEq] at hj
        rw [hj.1]
        exact ⟨hk,hne⟩
    waiting := by
      intro j rest last hw
      obtain ⟨data,ha,hrest⟩ := h.waiting j rest last hw
      rw [hsaid]
      exact ⟨data,List.mem_append_left _ ha,hrest⟩
    delivered := by
      intro j data hj ha
      have hlog := hasked j c data ha
      rw [hsaid]
      rcases List.mem_append.mp hj with hj | hj
      · exact h.delivered j data hj hlog
      · rw [List.mem_singleton,Note.settled.injEq] at hj
        obtain ⟨rfl,hres⟩ := hj
        exact hd hres.symm data hlog }

/-- A try of a call that does not send on the connection pushes nothing there, and delivers nothing
there. -/
theorem attempt_aside (k : CallId) {s : Sender} {call : Sender.Call}
    (h : ∀ rest last, call ≠ .send c rest last) :
    Sender.added k call.conn c s (s.attempt call).2.2 = [] ∧
      ((s.attempt call).1 = .answer .delivered → call.conn ≠ c) ∧
      ∀ later, (s.attempt call).1 = .wait later → ∀ rest last, later ≠ .send c rest last := by
  cases hx : s.conns[call.conn]? with
  | none =>
    rw [Sender.attempt_of_none hx]
    refine ⟨Sender.added_of_eq k rfl,fun hd => ?_,fun _ hw => ?_⟩
    · cases hd
    · cases hw
  | some x =>
    cases call with
    | connect d =>
      refine ⟨?_,fun hd => ?_,fun later hw => ?_⟩
      · rw [Sender.attempt_connect_unchanged]
        exact Sender.added_of_eq k rfl
      · simp only [Sender.attempt,hx] at hd
        split at hd
        · cases hd
        · split at hd
          · cases hd
          · cases hd
      · simp only [Sender.attempt,hx] at hw
        split at hw
        · cases hw
        · split at hw
          · cases hw
          · cases hw
            exact fun _ _ he => by cases he
    | disconnect d =>
      have hx : s.conns[d]? = some x := hx
      refine ⟨Sender.disconnect_added s k d,fun hd => ?_,fun later hw => ?_⟩
      · rw [Sender.attempt_disconnect hx] at hd
        split at hd
        · cases hd
        · split at hd
          · cases hd
          · cases hd
      · rw [Sender.attempt_disconnect hx] at hw
        split at hw
        · cases hw
        · split at hw
          · cases hw
          · cases hw
            exact fun _ _ he => by cases he
    | send d rest last =>
      have hd : d ≠ c := by
        rintro rfl
        exact h rest last rfl
      refine ⟨if_neg hd,fun _ => hd,fun later hw rest' last' he => ?_⟩
      obtain ⟨hconn,_⟩ := Sender.attempt_wait hw
      rw [he] at hconn
      exact hd hconn.symm

/-- The call in hand `k` to send on the connection tries: it pushes what there is room for. -/
theorem push_rest (h : Pledges c calls held point log) {rest : List Bytes} {last : Int32}
    (hk : (k,.send c rest last) ∈ held) {b : Outbox} (hb : b.Keeps (payloads (said c log)))
    (hp : pushes (said c notes) = (rest.take b.room).map fun piece => (k,piece))
    (hfew : (payloads (said c (log ++ notes))).length < Signed.fragmentLimit) :
    (∃ data, .asked k c data ∈ log ∧
      pushedBy k (said c (log ++ notes)) ++ rest.drop b.room = chunks Frame.maxPayload data) ∧
    Among (b.lastOf last (rest.take b.room)) (said c (log ++ notes)) ∧
    Within k (said c (log ++ notes)) (b.lastOf last (rest.take b.room)).toInt := by
  obtain ⟨data,ha,hrest,hlast,hin⟩ := h.waiting k rest last hk
  have hsplit : rest.take b.room ++ rest.drop b.room = rest := List.take_append_drop _ _
  have hpay : payloads (said c (log ++ notes)) = payloads (said c log) ++ rest.take b.room := by
    rw [said_append,Connection.payloads_append]
    congr 1
    simp [payloads,hp,Function.comp_def]
  refine ⟨⟨data,ha,?_⟩,?_⟩
  · rw [said_append,Connection.pushedBy_append_self hp,List.append_assoc,hsplit,hrest]
  · by_cases hn : rest.take b.room = []
    · rw [hn,Outbox.lastOf_nil,said_append]
      refine ⟨hlast.append _,fun i piece hi => ?_⟩
      rw [Connection.pushes_append,hp,hn,List.map_nil,List.append_nil] at hi
      exact hin i piece hi
    · rw [hpay] at hfew
      have he := hb.lastOf_eq last hn hfew
      rw [← hpay] at he
      refine ⟨⟨?_,Int.le_of_eq he⟩,?_⟩
      · rw [he]
        exact Int.natCast_nonneg _
      · rw [he]
        exact Connection.within_length k _

/-- What follows when the call in hand `k` tries, and all that is noted is what it pushes. -/
def Tried (c : ConnRef) (calls : Nat) (held : List (CallId × Sender.Call)) (point : Int)
    (log : List Note) (k : CallId) : Outcome Sender.Call Sender.Result → Prop
  | .wait later => Pledges c calls ((k,later) :: held.filter fun e => e.1 ≠ k) point log
  | .answer result =>
    Pledges c calls (held.filter fun e => e.1 ≠ k) point (log ++ [.settled k result])

theorem in_hand (h : Pledges c calls held point log) {call : Sender.Call} (hk : (k,call) ∈ held)
    (hp : pushes (said c notes) = pieces.map fun piece => (k,piece))
    (ha : ∀ j d data, .asked j d data ∉ notes) (hs : ∀ j result, .settled j result ∉ notes) :
    Pledges c calls (held.filter fun e => e.1 ≠ k) point (log ++ notes) ∧
      (∀ e ∈ held.filter (fun e => e.1 ≠ k), e.1 ≠ k) ∧
      (∀ result, .settled k result ∉ log ++ notes) ∧
      ∀ d data, .asked k d data ∈ log ++ notes → .asked k d data ∈ log := by
  have hunsettled : ∀ result, .settled k result ∉ log := by
    intro result hr
    exact (h.settled k result hr).2 _ hk rfl
  have hothers : ∀ e ∈ held.filter (fun e => e.1 ≠ k), e.1 ≠ k := by
    intro e he
    simpa using (List.mem_filter.mp he).2
  have hhand : Pledges c calls (held.filter fun e => e.1 ≠ k) point log :=
    h.weaken (Nat.le_refl _) (fun e he => (List.mem_filter.mp he).1) (Int.le_refl _)
  refine ⟨hhand.push hp (fun _ => ⟨h.older _ hk,hothers,hunsettled⟩) ha hs,hothers,?_,?_⟩
  · intro result hr
    rcases List.mem_append.mp hr with hr | hr
    · exact hunsettled result hr
    · exact hs k result hr
  · intro d data hd
    exact (List.mem_append.mp hd).resolve_right (ha k d data)

theorem attempt_sending (h : Pledges c calls held point log) {s : Sender} {rest : List Bytes}
    {last : Int32} (hk : (k,.send c rest last) ∈ held)
    (hconn : ∀ x, s.conns[c]? = some x →
      x.outbox.Keeps (payloads (said c log)) ∧ x.outbox.lastAcked.toInt ≤ point)
    (hp : pushes (said c notes) =
      pushes (Sender.added k c c s (s.attempt (.send c rest last)).2.2))
    (ha : ∀ j d data, .asked j d data ∉ notes) (hs : ∀ j result, .settled j result ∉ notes)
    (hfew : (payloads (said c (log ++ notes))).length < Signed.fragmentLimit) :
    Tried c calls held point (log ++ notes) k (s.attempt (.send c rest last)).1 := by
  have holder := h.older _ hk
  have hdropped : ∀ result, result ≠ .delivered →
      pushes (said c notes) = ([] : List Bytes).map (fun piece => (k,piece)) →
      Tried c calls held point (log ++ notes) k (.answer result) := by
    intro result hr hnone
    obtain ⟨hgo,hothers,_⟩ := h.in_hand hk hnone ha hs
    exact hgo.settle holder hothers fun hd => absurd hd hr
  cases hx : s.conns[c]? with
  | none =>
    have hx : s.conns[(Sender.Call.send c rest last).conn]? = none := hx
    rw [Sender.attempt_of_none hx] at hp ⊢
    rw [Sender.added_of_eq k rfl] at hp
    exact hdropped _ (by simp) hp
  | some x =>
    by_cases hc : rest ≠ [] ∧ x.closed = true
    · rw [Sender.attempt_send_of_closed last hx hc] at hp ⊢
      rw [Sender.added_of_eq k rfl] at hp
      exact hdropped _ (by simp) hp
    · obtain ⟨hkeeps,hpoint⟩ := hconn x hx
      rw [Sender.attempt_send last hx hc] at hp ⊢
      have hadded : Sender.added k c c s (s.modify c fun conn => { conn with
          outbox := x.outbox.extend (rest.take x.outbox.room) }) =
          (rest.take x.outbox.room).map (.pushed k) := by
        rw [Sender.added,if_pos rfl,Sender.grown_hold hx]
      have hpieces : pushes (said c notes) =
          (rest.take x.outbox.room).map fun piece => (k,piece) := by
        rw [hp,hadded,Connection.pushes_pushed]
      obtain ⟨⟨data,hask,hall⟩,hlast,hin⟩ := h.push_rest hk hkeeps hpieces hfew
      obtain ⟨hgo,hothers,hunsettled,hasked⟩ := h.in_hand hk hpieces ha hs
      have hwait : ∀ later, later = rest.drop x.outbox.room →
          Tried c calls held point (log ++ notes) k (.wait (.send c later
            (x.outbox.lastOf last (rest.take x.outbox.room)))) := by
        rintro later rfl
        refine hgo.hold holder hunsettled (fun d data' hd => ?_) fun rest' last' he => ?_
        · exact h.about _ hk d data' (hasked d data' hd)
        · obtain ⟨-,rfl,rfl⟩ := Sender.Call.send.inj he
          exact ⟨data,List.mem_append_left _ hask,hall,hlast,hin⟩
      simp only [Sender.tried]
      split
      · exact hwait _ rfl
      · rename_i hleft
        have hleft := Decidable.not_not.mp hleft
        split
        · rename_i hacked
          refine hgo.settle holder hothers fun _ data' hd => ?_
          obtain ⟨-,rfl⟩ := h.once k c data c data' hask (hasked c data' hd)
          rw [hleft,List.append_nil] at hall
          have hle := (hkeeps.acked_iff hlast.1).mp hacked
          exact ⟨hall,hin.mono (Int.le_trans hle hpoint)⟩
        · split
          · exact hgo.settle holder hothers fun hd => by cases hd
          · exact hwait [] hleft.symm

theorem attempt (h : Pledges c calls held point log) {s : Sender} {call : Sender.Call}
    (hk : (k,call) ∈ held)
    (hconn : ∀ rest last, call = .send c rest last → ∀ x, s.conns[c]? = some x →
      x.outbox.Keeps (payloads (said c log)) ∧ x.outbox.lastAcked.toInt ≤ point)
    (hp : pushes (said c notes) = pushes (Sender.added k call.conn c s (s.attempt call).2.2))
    (ha : ∀ j d data, .asked j d data ∉ notes) (hs : ∀ j result, .settled j result ∉ notes)
    (hfew : (payloads (said c (log ++ notes))).length < Signed.fragmentLimit) :
    Tried c calls held point (log ++ notes) k (s.attempt call).1 := by
  by_cases hcall : ∃ rest last, call = .send c rest last
  · obtain ⟨rest,last,rfl⟩ := hcall
    exact h.attempt_sending hk (hconn rest last rfl) hp ha hs hfew
  · have hne : ∀ rest last, call ≠ .send c rest last := fun rest last he => hcall ⟨rest,last,he⟩
    obtain ⟨hadded,hanswer,hwait⟩ := attempt_aside k (s := s) hne
    have hnone : pushes (said c notes) = ([] : List Bytes).map fun piece => (k,piece) := by
      rw [hp,hadded]
      rfl
    obtain ⟨hgo,hothers,hunsettled,hasked⟩ := h.in_hand hk hnone ha hs
    cases ho : (s.attempt call).1 with
    | wait later =>
      refine hgo.hold (h.older _ hk) hunsettled (fun d data hd => ?_) fun rest last he => ?_
      · rw [(Sender.attempt_wait ho).1]
        exact h.about _ hk d data (hasked d data hd)
      · exact absurd he (hwait later ho rest last)
    | answer result =>
      refine hgo.settle (h.older _ hk) hothers fun hd data hask => ?_
      rw [hd] at ho
      exact absurd (h.about _ hk c data (hasked c data hask)) (hanswer ho)

theorem pushes_said (c : ConnRef) (os : List Sender.Output) : pushes (Sender.said c os) = [] := by
  induction os with
  | nil => rfl
  | cons o os ih =>
    cases o with
    | send d frame =>
      rw [Sender.said_cons_send,Connection.pushes_append,ih]
      split
      · rfl
      · rfl
    | finish k result => exact ih

theorem asked_ofOutput (os : List Sender.Output) (j : CallId) (d : ConnRef) (data : Bytes) :
    .asked j d data ∉ os.map Note.ofOutput := by
  intro h
  obtain ⟨o,_,ho⟩ := List.mem_map.mp h
  cases o <;> cases ho

theorem settled_ofOutput {os : List Sender.Output} {j : CallId} {result : Sender.Result}
    (h : .settled j result ∈ os.map Note.ofOutput) : .finish j result ∈ os := by
  obtain ⟨o,ho,he⟩ := List.mem_map.mp h
  cases o with
  | send d frame => cases he
  | finish k r =>
    obtain ⟨rfl,rfl⟩ := Note.settled.inj he
    exact ho

theorem asked_ofPushes (k : CallId) (s t : Sender) (subject : Option ConnRef) (j : CallId)
    (d : ConnRef) (data : Bytes) : .asked j d data ∉ Note.ofPushes k s t subject := by
  cases subject with
  | none => simp [Note.ofPushes]
  | some e => simp [Note.ofPushes]

theorem settled_ofPushes (k : CallId) (s t : Sender) (subject : Option ConnRef) (j : CallId)
    (result : Sender.Result) : .settled j result ∉ Note.ofPushes k s t subject := by
  cases subject with
  | none => simp [Note.ofPushes]
  | some e => simp [Note.ofPushes]

theorem of_tried {fewer : List (CallId × Sender.Call)} {sent : List Sender.Output}
    {outcome : Outcome Sender.Call Sender.Result}
    (h : Tried c calls held point (log ++ (notes ++ sent.map Note.ofOutput)) k outcome)
    (hf : ∀ e ∈ fewer, (e ∈ held ∧ e.1 ≠ k) ∨ ∃ later, outcome = .wait later ∧ e = (k,later)) :
    Pledges c calls fewer point
      (log ++ (notes ++ (Sender.finished k sent outcome).map Note.ofOutput)) := by
  have hin : ∀ e ∈ fewer, e ∈ held.filter (fun e => e.1 ≠ k) ∨
      ∃ later, outcome = .wait later ∧ e = (k,later) := by
    intro e he
    rcases hf e he with ⟨hm,hne⟩ | hw
    · exact .inl (List.mem_filter.mpr ⟨hm,by simpa using hne⟩)
    · exact .inr hw
  cases outcome with
  | wait later =>
    refine weaken h (Nat.le_refl _) (fun e he => ?_) (Int.le_refl _)
    rcases hin e he with hm | ⟨later',hw,rfl⟩
    · exact List.mem_cons_of_mem _ hm
    · obtain rfl := Outcome.wait.inj hw
      exact List.mem_cons_self
  | answer result =>
    have hlog : log ++ (notes ++ (Sender.finished k sent (.answer result)).map Note.ofOutput) =
        log ++ (notes ++ sent.map Note.ofOutput) ++ [.settled k result] := by
      simp [Sender.finished,Note.ofOutput]
    rw [hlog]
    refine weaken h (Nat.le_refl _) (fun e he => ?_) (Int.le_refl _)
    rcases hin e he with hm | ⟨_,hw,_⟩
    · exact hm
    · cases hw

theorem try_out (h : Pledges c calls held point log) {s : Sender} {call : Sender.Call}
    (hk : (k,call) ∈ held)
    (hconn : ∀ rest last, call = .send c rest last → ∀ x, s.conns[c]? = some x →
      x.outbox.Keeps (payloads (said c log)) ∧ x.outbox.lastAcked.toInt ≤ point)
    (hp : pushes (said c notes) = pushes (Sender.added k call.conn c s (s.attempt call).2.2))
    (ha : ∀ j d data, .asked j d data ∉ notes) (hs : ∀ j result, .settled j result ∉ notes)
    {fewer : List (CallId × Sender.Call)}
    (hf : ∀ e ∈ fewer, (e ∈ held ∧ e.1 ≠ k) ∨
      ∃ later, (s.attempt call).1 = .wait later ∧ e = (k,later))
    (hfew : (payloads (said c (log ++ notes))).length < Signed.fragmentLimit) :
    Pledges c calls fewer point (log ++ (notes ++
      (Sender.finished k (s.attempt call).2.1 (s.attempt call).1).map Note.ofOutput)) := by
  have hsent : pushes (said c ((s.attempt call).2.1.map Note.ofOutput)) = [] := by
    rw [said_ofOutput,pushes_said]
  refine of_tried (h.attempt hk hconn ?_ ?_ ?_ ?_) hf
  · rw [said_append,Connection.pushes_append,hsent,List.append_nil,hp]
  · intro j d data hm
    rcases List.mem_append.mp hm with hm | hm
    · exact ha j d data hm
    · exact asked_ofOutput _ j d data hm
  · intro j result hm
    rcases List.mem_append.mp hm with hm | hm
    · exact hs j result hm
    · have hm := settled_ofOutput hm
      rcases s.attempt_sent call with he | ⟨d,_,_,he⟩
      · rw [he] at hm
        cases hm
      · rw [he] at hm
        simp at hm
  · have hpay : payloads (said c ((s.attempt call).2.1.map Note.ofOutput)) = [] := by
      rw [payloads,hsent]
      rfl
    rw [said_append,Connection.payloads_append] at hfew ⊢
    rw [said_append,Connection.payloads_append,hpay,List.append_nil]
    exact hfew

/-- A new call is answered at once, but not that its data was delivered. -/
theorem answered (h : Pledges c calls held point log) {result : Sender.Result}
    (hr : result ≠ .delivered) :
    Pledges c (calls + 1) held point (log ++ [.settled calls result]) :=
  (h.weaken (Nat.le_succ _) (fun _ he => he) (Int.le_refl _)).settle (Nat.lt_succ_self _)
    (fun e he => Nat.ne_of_lt (h.older e he)) fun hd => absurd hd hr

theorem not_asked (h : Pledges c calls held point log) (d : ConnRef) (data : Bytes) :
    .asked calls d data ∉ log := fun ha => Nat.lt_irrefl _ (h.asked _ d data ha)

theorem not_settled (h : Pledges c calls held point log) (result : Sender.Result) :
    .settled calls result ∉ log := fun hs => Nat.lt_irrefl _ (h.settled _ result hs).1

theorem not_pushed (h : Pledges c calls held point log) :
    pushedBy calls (said c log) = [] ∧ ∀ n : Int, Within calls (said c log) n := by
  constructor
  · exact Connection.pushedBy_eq_nil fun e he => Nat.ne_of_lt (h.pushed e he)
  · intro n i piece hi
    exact absurd (h.pushed _ (List.mem_of_getElem? hi)) (Nat.lt_irrefl calls)

theorem hold_new (h : Pledges c calls held point log) {call : Sender.Call}
    (hc : ∀ rest last, call ≠ .send c rest last) :
    Pledges c (calls + 1) ((calls,call) :: held) point log :=
  (h.weaken (Nat.le_succ _) (fun _ he => he) (Int.le_refl _)).hold (Nat.lt_succ_self _)
    h.not_settled (fun d data ha => absurd ha (h.not_asked d data))
    fun rest last he => absurd he (hc rest last)

theorem hold_send (h : Pledges c calls held point log) (d : ConnRef) (data : Bytes) :
    Pledges c (calls + 1) ((calls,.send d (chunks Frame.maxPayload data) 0) :: held) point
      (log ++ [.asked calls d data]) := by
  have hsaid : said c (log ++ [.asked calls d data]) = said c log := by
    rw [said_append]
    exact List.append_nil _
  have hasked : ∀ d' data', .asked calls d' data' ∈ log ++ [.asked calls d data] →
      d' = d ∧ data' = data := by
    intro d' data' ha
    rcases List.mem_append.mp ha with ha | ha
    · exact absurd ha (h.not_asked d' data')
    · rw [List.mem_singleton,Note.asked.injEq] at ha
      exact ha.2
  refine (h.ask d data).hold (Nat.lt_succ_self _) (fun result hs => ?_) (fun d' data' ha => ?_)
    fun rest last he => ?_
  · rcases List.mem_append.mp hs with hs | hs
    · exact h.not_settled result hs
    · simp at hs
  · exact (hasked d' data' ha).1.symm
  · obtain ⟨rfl,rfl,rfl⟩ := Sender.Call.send.inj he
    obtain ⟨hby,hin⟩ := h.not_pushed
    rw [hsaid,hby]
    exact ⟨data,List.mem_append_right _ (List.mem_singleton_self _),rfl,
      ⟨by decide,Int.natCast_nonneg _⟩,hin _⟩

end Pledges

def point (s : Sender) (c : ConnRef) : Int :=
  ((s.conns[c]?).map fun x => x.outbox.lastAcked.toInt).getD (-1)

abbrev Pledged (c : ConnRef) (n : Network) : Prop :=
  Pledges c n.sender.calls n.sender.held (point n.sender c) n.log

section

variable {near far : Address} {c : ConnRef} {shutting : Prop} {r₀ : Registry} {n : Network}

theorem point_of_some {s : Sender} {x : Connection} (hx : s.conns[c]? = some x) :
    point s c = x.outbox.lastAcked.toInt := by
  rw [point,hx]
  rfl

theorem Ties.point_le (h : Ties near far c shutting r₀ n) {watched : ConnRef → Prop}
    {hears : ConnRef → Frame → Prop} {t : Sender} {notes : List Note}
    (hs : Stirs watched hears n.sender t notes) (hc : watched c)
    (hfew : (payloads (said c (n.log ++ notes))).length < Signed.fragmentLimit) :
    point n.sender c ≤ point t c := by
  cases hx : n.sender.conns[c]? with
  | some x =>
    obtain ⟨threshold,hp⟩ := hs.plays c hc
    obtain ⟨y,hy,ht⟩ := hp x hx
    rw [point_of_some hx,point_of_some hy]
    rw [said_append] at hfew
    exact ht.acked_le (h.link.conduct x hx) hfew
  | none =>
    have hn : point n.sender c = -1 := by
      rw [point,hx]
      rfl
    rw [hn]
    rcases hs.fresh c hx with ⟨ht,_⟩ | ⟨id,bound,remote,threshold,now,ht,_⟩
    · rw [point,ht]
      exact Int.le_refl _
    · rw [point_of_some ht]
      exact Int.le_refl _

theorem Ties.keeps_of_proper (h : Ties near far c shutting r₀ n) {rest : List Bytes} {last : Int32}
    (hp : (Sender.Call.send c rest last).Proper n.sender) {x : Connection}
    (hx : n.sender.conns[c]? = some x) :
    x.outbox.Keeps (payloads (said c n.log)) ∧
      x.outbox.lastAcked.toInt ≤ point n.sender c := by
  refine ⟨(h.link.conduct x hx).keeps (hp.1 x hx),?_⟩
  exact Int.le_of_eq (point_of_some hx).symm

theorem Pledged.send_data (h : Pledged c n) (ht : Ties near far c shutting r₀ n) (id : ConnId)
    (data : Bytes)
    (hfew : (payloads (said c (n.send (.send id data)).log)).length < Signed.fragmentLimit) :
    Pledges c (n.sender.react (.send id data)).1.calls (n.sender.react (.send id data)).1.held
      (point n.sender c) (n.send (.send id data)).log := by
  simp only [Network.send,Note.ofEvent,Note.ofCall,Sender.Event.subject,Sender.react] at hfew ⊢
  cases he : n.sender.established id with
  | none => exact h.answered fun hd => by cases hd
  | some e =>
    obtain ⟨d,x⟩ := e
    simp only [he,Option.map_some,Option.toList_some] at hfew ⊢
    by_cases hdata : data = []
    · subst hdata
      have hgrown : Sender.grown n.sender (n.sender.answer [] .delivered).1 d = [] :=
        Sender.grown_of_eq rfl
      have hsaid : said c (n.log ++ [.asked n.sender.calls d []]) = said c n.log := by
        rw [said_append]
        exact List.append_nil _
      obtain ⟨hby,hin⟩ := h.not_pushed
      have hnew : Pledges c (n.sender.calls + 1) n.sender.held (point n.sender c)
          (n.log ++ [.asked n.sender.calls d []] ++ [.settled n.sender.calls .delivered]) := by
        refine (h.ask d []).settle (Nat.lt_succ_self _)
          (fun e hm => Nat.ne_of_lt (h.older e hm)) fun _ data ha => ?_
        rcases List.mem_append.mp ha with ha | ha
        · exact absurd ha (h.not_asked c data)
        · rw [List.mem_singleton,Note.asked.injEq] at ha
          obtain ⟨-,rfl,rfl⟩ := ha
          rw [hsaid,hby]
          exact ⟨rfl,hin _⟩
      rw [List.append_assoc] at hnew
      simp only [if_true,Note.ofPushes,hgrown,List.map_nil,List.nil_append]
      exact hnew
    · simp only [if_neg hdata] at hfew ⊢
      have hproper := Sender.proper_send he data
      have hsaid : said c (n.log ++ [.asked n.sender.calls d data]) = said c n.log := by
        rw [said_append]
        exact List.append_nil _
      rw [Sender.enter_calls,← List.append_assoc,Sender.enter_finished]
      refine (h.hold_send d data).try_out List.mem_cons_self ?_ ?_ (Pledges.asked_ofPushes _ _ _ _)
        (Pledges.settled_ofPushes _ _ _ _) (fun e hm => ?_) ?_
      · intro rest last hcall y hy
        obtain ⟨rfl,_⟩ := Sender.Call.send.inj hcall
        rw [hsaid]
        exact ht.keeps_of_proper hproper hy
      · rw [said_ofPushes,Sender.addedOn,Sender.added_congr _ (Sender.enter_conns _ _)]
        rfl
      · rcases Sender.of_enter_held hm with hm | ⟨hid,hw⟩
        · exact .inl ⟨List.mem_cons_of_mem _ hm,Nat.ne_of_lt (h.older e hm)⟩
        · exact .inr ⟨e.2,hw,Prod.ext hid rfl⟩
      · refine Nat.lt_of_le_of_lt (length_le_of_earlier ?_ c) hfew
        rw [List.append_assoc]
        exact List.prefix_append_right_inj _ |>.mpr
          (List.prefix_append_right_inj _ |>.mpr (List.prefix_append _ _))

theorem Pledged.resume (h : Pledged c n) (ht : Ties near far c shutting r₀ n) (k : CallId)
    (hfew : (payloads (said c (n.resume k).log)).length < Signed.fragmentLimit) :
    Pledges c (n.sender.poll k).1.calls (n.sender.poll k).1.held (point n.sender c)
      (n.resume k).log := by
  simp only [Network.resume,Note.ofCall,Sender.subject] at hfew ⊢
  cases hr : Waiting.ready? n.sender.waiting k with
  | none =>
    rw [Sender.poll_none hr]
    simp only [Option.map_none,Note.ofPushes,List.map_nil,List.append_nil]
    exact h
  | some call =>
    rw [hr,Option.map_some] at hfew
    have hk := Sender.mem_held_of_ready hr
    rw [Sender.poll_calls,Option.map_some,Sender.poll_finished hr]
    refine h.try_out hk ?_ ?_ (Pledges.asked_ofPushes _ _ _ _)
      (Pledges.settled_ofPushes _ _ _ _) (fun e hm => ?_) ?_
    · rintro rest last rfl y hy
      exact ht.keeps_of_proper (ht.proper _ hk rfl) hy
    · rw [said_ofPushes,Sender.addedOn,Sender.added_congr _ (Sender.poll_conns hr)]
    · rcases Sender.of_poll_held hr hm with ⟨hm,hne⟩ | ⟨hid,hw⟩
      · exact .inl ⟨hm,hne⟩
      · exact .inr ⟨e.2,hw,Prod.ext hid rfl⟩
    · refine Nat.lt_of_le_of_lt (length_le_of_earlier ?_ c) hfew
      exact List.prefix_append_right_inj _ |>.mpr (List.prefix_append _ _)

theorem Pledged.ask_connect (h : Pledged c n) (bound remote : Address) (now : Nat) :
    Pledges c (n.sender.react (.connect bound remote none now)).1.calls
      (n.sender.react (.connect bound remote none now)).1.held (point n.sender c)
      (n.send (.connect bound remote none now)).log := by
  simp only [Network.send,Note.ofCall,Note.ofEvent,Sender.Event.subject,Note.ofPushes,
    Sender.react,Sender.onConnect_eq,List.nil_append,List.map_cons,List.map_nil]
  have hnew : Pledges c (n.sender.calls + 1)
      ((n.sender.calls,.connect n.sender.conns.length) :: n.sender.held)
      (point n.sender c) n.log := h.hold_new fun _ _ hc => by cases hc
  have hpushes : pushes (said c [Note.ofOutput (.send n.sender.conns.length
      Connection.requestFrame)]) =
      ([] : List Bytes).map fun piece => (n.sender.calls,piece) := by
    have hs := Pledges.pushes_said c [.send n.sender.conns.length Connection.requestFrame]
    rw [← said_ofOutput] at hs
    exact hs
  have hpushed := hnew.push (k := n.sender.calls) hpushes (fun hne => absurd rfl hne)
    (fun j d data hm => by simp [Note.ofOutput] at hm) fun j result hm => by
      simp [Note.ofOutput] at hm
  refine hpushed.weaken (Nat.le_refl _) (fun e hm => ?_) (Int.le_refl _)
  simp only [Sender.held,List.map_append,List.map_cons,List.map_nil,List.mem_append,
    List.mem_singleton] at hm
  rcases hm with hm | rfl
  · exact List.mem_cons_of_mem _ hm
  · exact List.mem_cons_self

theorem Pledged.ask_disconnect (h : Pledged c n) (id : ConnId)
    (hfew : (payloads (said c (n.send (.disconnect id)).log)).length < Signed.fragmentLimit) :
    Pledges c (n.sender.react (.disconnect id)).1.calls (n.sender.react (.disconnect id)).1.held
      (point n.sender c) (n.send (.disconnect id)).log := by
  simp only [Network.send,Note.ofCall,Note.ofEvent,Sender.Event.subject,Note.ofPushes,
    Sender.react,List.nil_append]
  cases he : n.sender.established id with
  | none => exact h.answered fun hd => by cases hd
  | some e =>
    obtain ⟨d,x⟩ := e
    simp only
    split
    · exact h.answered fun hd => by cases hd
    · have hnew : Pledges c (n.sender.calls + 1) ((n.sender.calls,.disconnect d) :: n.sender.held)
          (point n.sender c) n.log := h.hold_new fun _ _ hc => by cases hc
      rw [Sender.enter_calls,Sender.enter_finished,← List.nil_append (List.map Note.ofOutput _)]
      refine hnew.try_out List.mem_cons_self (fun _ _ hc => by cases hc) ?_
        (fun _ _ _ hm => by cases hm) (fun _ _ hm => by cases hm) (fun e hm => ?_) ?_
      · simp only [Sender.Call.conn,Sender.disconnect_added,said_nil]
      · rcases Sender.of_enter_held hm with hm | ⟨hid,hw⟩
        · exact .inl ⟨List.mem_cons_of_mem _ hm,Nat.ne_of_lt (h.older e hm)⟩
        · exact .inr ⟨e.2,hw,Prod.ext hid rfl⟩
      · rw [List.append_nil]
        exact Nat.lt_of_le_of_lt (length_le_of_earlier (List.prefix_append _ _) c) hfew

theorem Pledged.hear (h : Pledged c n) (ht : Ties near far c shutting r₀ n) (e : Sender.Event)
    (hfew : (payloads (said c (n.send e).log)).length < Signed.fragmentLimit) :
    Pledges c (n.sender.react e).1.calls (n.sender.react e).1.held (point n.sender c)
      (n.send e).log := by
  have houter : e.Outer → Note.ofEvent n.sender e = [] → e.subject n.sender = none →
      Pledges c (n.sender.react e).1.calls (n.sender.react e).1.held (point n.sender c)
        (n.send e).log := by
    intro ho hnone hsubject
    obtain ⟨hcalls,hheld,hfinish⟩ := n.sender.react_outer ho
    simp only [Network.send,Note.ofCall,hnone,hsubject,Note.ofPushes,List.nil_append]
    rw [hcalls,hheld]
    have hpushes : pushes (said c ((n.sender.react e).2.map Note.ofOutput)) =
        ([] : List Bytes).map fun piece => (n.sender.calls,piece) := by
      rw [said_ofOutput,Pledges.pushes_said]
      rfl
    exact h.push hpushes (fun hne => absurd rfl hne) (Pledges.asked_ofOutput _)
      fun j result hs => hfinish j result (Pledges.settled_ofOutput hs)
  cases e with
  | connect bound remote refused now =>
    cases refused with
    | some cause => exact h.answered fun hd => by cases hd
    | none => exact h.ask_connect bound remote now
  | send id data => exact h.send_data ht id data hfew
  | disconnect id => exact h.ask_disconnect id hfew
  | close =>
    have hnew : Pledges c (n.sender.calls + 1) n.sender.held (point n.sender c)
        (n.log ++ [.settled n.sender.calls .shut]) := h.answered fun hd => by cases hd
    simp only [Network.send,Note.ofCall,Note.ofEvent,Sender.Event.subject,Note.ofPushes,
      Sender.react,Sender.answer,Sender.shut_calls,List.nil_append]
    have hheld : ({ n.sender.shut with calls := n.sender.calls + 1 } : Sender).held =
        n.sender.held := Sender.shut_held n.sender
    rw [hheld]
    exact hnew
  | datagram d source raw now => exact houter trivial rfl rfl
  | retry d => exact houter trivial rfl rfl
  | wake d now => exact houter trivial rfl rfl
  | tick d => exact houter trivial rfl rfl

theorem Pledged.send (h : Pledged c n) (ht : Ties near far c shutting r₀ n) (e : Sender.Event)
    (hfew : (payloads (said c (n.send e).log)).length < Signed.fragmentLimit) :
    Pledged c (n.send e) := by
  have hs := stirs_react ht.sender (fun _ => True) e
  exact (h.hear ht e hfew).weaken (Nat.le_refl _) (fun _ he => he)
    (ht.point_le hs trivial hfew)

theorem Pledged.receiver (h : Pledged c n) (r : Receiver) (ds : List Registry.Deed) :
    Pledged c ⟨n.sender,r,n.log ++ ds.map .registry⟩ := by
  have hpushes : pushes (said c (ds.map Note.registry)) =
      ([] : List Bytes).map fun piece => (0,piece) := by
    rw [said_registry]
    rfl
  exact h.push hpushes (fun hne => absurd rfl hne) (fun _ _ _ hm => by simp at hm)
    fun _ _ hm => by simp at hm

theorem Pledged.step (h : Pledged c n) (ht : Ties near far c shutting r₀ n) (move : Move)
    (hfew : (payloads (said c (n.step near far move).log)).length < Signed.fragmentLimit) :
    Pledged c (n.step near far move) := by
  have hm := moved near far n move
  generalize n.step near far move = m at hm hfew ⊢
  cases hm with
  | same => exact h
  | send e => exact h.send ht e hfew
  | resume k =>
    have hs : Stirs (fun d => d = c) (fun _ _ => False) n.sender (n.sender.poll k).1 _ :=
      stirs_poll ht.sender _ k fun e he hc => ht.proper e he hc
    exact (h.resume ht k hfew).weaken (Nat.le_refl _) (fun _ he => he) (ht.point_le hs rfl hfew)
  | receive e => exact h.receiver _ _
  | recover k => exact h.receiver _ _
  | restart settings =>
    have hs := stirs_restart n.sender (fun _ => True) (fun _ _ => False) settings
    have hle := ht.point_le hs trivial (by rw [List.append_nil]; exact hfew)
    exact h.weaken (Nat.le_refl _) (fun _ he => by cases he) hle

/-- The calls of a connection that is still to be made amount to nothing. -/
theorem Pledged.begin (h : n.Sound) (hlog : n.log = []) (hc : n.sender.conns[c]? = none) :
    Pledged c n where
  pushed := by simp [hlog]
  asked := by simp [hlog]
  once := by simp [hlog]
  older := h.1.older
  about := by simp [hlog]
  settled := by simp [hlog]
  waiting := by
    intro k rest last hw
    have hlt := h.1.about _ hw
    exact absurd hlt (Nat.not_lt.mpr (List.getElem?_eq_none_iff.mp hc))
  delivered := by simp [hlog]

theorem Pledged.reach {m : Network} (hr : Reaches near far n m) (h : Pledged c n)
    (ht : Ties near far c shutting r₀ n) (hm : Sole near far c shutting n m) : Pledged c m := by
  induction hr with
  | refl => exact h
  | @step l hl move ih =>
    have hsole := hm.earlier (grows_step near far l move)
    exact (ih hsole).step (ht.reach hl hsole) move hm.few

end

end Network
end ReliableTransport
