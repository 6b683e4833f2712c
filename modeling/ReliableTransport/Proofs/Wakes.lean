import ReliableTransport.Proofs.Chronicle
import ReliableTransport.Proofs.Rewinds
import ReliableTransport.Sender.Clocked

/-! What one wake-up of a connection sends. Steps on the line in a row send the payloads after the
cursor, each once, and then rest (`Wake`), whatever the clock says at each of them; if the window is
too small they rest at once. A wake-up of a connection is such steps up to the rest, a sign of life
(`Pumped`), and nothing more until its alarm has rung again (`get?_advance`). -/
namespace ReliableTransport
namespace Outbox

open Log Signed

variable {b c : Outbox} {pushed : List Bytes} {log : Log} {q : Request} {reply : Reply}
  {minWindow : Int32}

/-- Requests for steps on the line, each with a reading of the clock and a threshold. -/
def steps (minWindow : Int32) (readings : List (Nat × Nat)) : List Request :=
  readings.map fun r => .next r.1 minWindow r.2

def answers (pieces : List (Int32 × Bytes)) (rewound : Bool) : List Reply :=
  pieces.map (fun piece => .acted (.transmit piece.1 piece.2)) ++ [.acted (.idle rewound)]

structure Settled (b c : Outbox) (minWindow : Int32) (rewound : Bool) : Prop where
  acked : c.lastAcked = b.lastAcked
  window : c.window = b.window
  slots : c.slots = b.slots
  cursor : c.lastSent.toInt =
    if rewound = true ∨ ¬ minWindow ≤ b.window then b.lastAcked.toInt
    else b.lastAcked.toInt + b.slots.length

/-- From the outbox on, steps in a row send some pieces and then rest. -/
structure Wake (b : Outbox) (minWindow : Int32) (pieces : List (Int32 × Bytes)) : Prop where
  /-- With room in the window they are numbered from after the cursor to the last payload held. -/
  fragments : minWindow ≤ b.window → pieces.map (·.1) =
    (List.range' ((max b.lastSent.toInt b.lastAcked.toInt).toNat + 1)
      (b.lastAcked.toInt + b.slots.length - max b.lastSent.toInt b.lastAcked.toInt).toNat).map
      Int32.ofNat
  shut : ¬ minWindow ≤ b.window → pieces = []
  slots : ∀ piece ∈ pieces,
    b.slots[(piece.1.toInt - b.lastAcked.toInt - 1).toNat]? = some piece.2
  few : pieces.length ≤ 10
  answered : ∀ readings, readings.length = pieces.length + 1 → ∃ rewound,
    (chain serve b (steps minWindow readings)).2.map (·.2) = answers pieces rewound ∧
      b.Settled (chain serve b (steps minWindow readings)).1 minWindow rewound

def Gate (b : Outbox) (minWindow : Int32) : Prop :=
  minWindow ≤ b.window ∨ b.highestSent.toInt = 0

/-- A rest changes the cursor and the time from which the wait is counted. -/
theorem rest_eq (b : Outbox) (cursor : Int32) (now threshold : Nat) : ∃ rewound progress,
    next.rest now threshold b cursor =
      (.idle rewound,{ b with lastSent := if rewound then b.lastAcked else cursor, progress }) := by
  unfold next.rest
  split
  · exact ⟨false,now,rfl⟩
  · split
    · exact ⟨true,now,rfl⟩
    · exact ⟨false,b.progress,rfl⟩

theorem settled_of_rest {now threshold : Nat}
    (hnext : b.next now minWindow threshold = next.rest now threshold b b.cursor)
    (hcursor : b.cursor.toInt = if minWindow ≤ b.window then b.lastAcked.toInt + b.slots.length
      else b.lastAcked.toInt) : ∃ rewound,
    (chain serve b (steps minWindow [(now,threshold)])).2.map (·.2) = answers [] rewound ∧
      b.Settled (chain serve b (steps minWindow [(now,threshold)])).1 minWindow rewound := by
  obtain ⟨rewound,progress,hrest⟩ := b.rest_eq b.cursor now threshold
  have hchain : chain serve b (steps minWindow [(now,threshold)]) =
      ({ b with lastSent := if rewound then b.lastAcked else b.cursor, progress },
        [(.next now minWindow threshold,.acted (.idle rewound))]) := by
    simp only [steps,List.map_cons,List.map_nil,chain_cons,chain_nil,serve,hnext,hrest,
      List.append_nil]
  rw [hchain]
  refine ⟨rewound,rfl,rfl,rfl,rfl,?_⟩
  cases rewound with
  | true => exact (if_pos (.inl rfl)).symm
  | false =>
    change b.cursor.toInt = _
    rw [hcursor]
    by_cases hw : minWindow ≤ b.window <;> simp [hw]

theorem length_numbered (n : Nat) (pieces : List Bytes) :
    (numbered n pieces).length = pieces.length := by
  induction pieces generalizing n with
  | nil => rfl
  | cons piece pieces ih => rw [numbered,List.length_cons,List.length_cons,ih]

theorem map_fst_numbered (n : Nat) (pieces : List Bytes) :
    (numbered n pieces).map (·.1) = (List.range' (n + 1) pieces.length).map Int32.ofNat := by
  induction pieces generalizing n with
  | nil => rfl
  | cons piece pieces ih =>
    rw [numbered,List.map_cons,ih,List.length_cons,List.range'_succ,List.map_cons]

/-- With room in the window each step sends the payload after the cursor until there is none. -/
theorem Keeps.answered_of_open (h : b.Keeps pushed) (hw : minWindow ≤ b.window)
    {readings : List (Nat × Nat)}
    (hlen : readings.length = (pushed.drop b.cursor.toInt.toNat).length + 1) : ∃ rewound,
    (chain serve b (steps minWindow readings)).2.map (·.2) =
        answers (numbered b.cursor.toInt.toNat (pushed.drop b.cursor.toInt.toNat)) rewound ∧
      b.Settled (chain serve b (steps minWindow readings)).1 minWindow rewound := by
  induction readings generalizing b with
  | nil => cases hlen
  | cons r readings ih =>
    have hc := h.cursor_eq
    have ha := h.acked
    rw [List.length_cons,List.length_drop] at hlen
    by_cases hlt : b.cursor.toInt.toNat < pushed.length
    · obtain ⟨hkeeps,hcursor⟩ := h.transmitted (by omega)
      have hplace : b.transmitted.cursor.toInt.toNat = b.cursor.toInt.toNat + 1 := by omega
      have hleft : readings.length =
          (pushed.drop b.transmitted.cursor.toInt.toNat).length + 1 := by
        rw [List.length_drop]
        omega
      obtain ⟨rewound,hanswers,hsettled⟩ := ih hkeeps hw hleft
      have hstep : b.serve (.next r.1 minWindow r.2) = (b.transmitted,
          [(.next r.1 minWindow r.2,
            .acted (.transmit (b.cursor + 1) pushed[b.cursor.toInt.toNat]))]) := by
        rw [serve,h.next_of_lt r.1 r.2 hw hlt]
      rw [steps,List.map_cons,chain_cons,hstep]
      refine ⟨rewound,?_,hsettled.acked,hsettled.window,hsettled.slots,hsettled.cursor⟩
      rw [hplace] at hanswers
      rw [List.map_append,List.drop_eq_getElem_cons hlt,numbered,answers,List.map_cons,
        List.cons_append,← h.cursor_succ_eq hlt]
      exact congrArg _ hanswers
    · have hnil : readings = [] := List.length_eq_zero_iff.mp (by omega)
      subst hnil
      rw [List.drop_eq_nil_of_le (by omega)]
      refine settled_of_rest (h.next_of_rest _ _ fun ho => hlt ho.2) ?_
      have h₁ := h.sent_le
      have h₂ := h.acked_le
      have h₃ := h.highest_le
      have hl := h.length_slots
      rw [if_pos hw]
      omega

theorem Keeps.wake_of_open (h : b.Keeps pushed) (hw : minWindow ≤ b.window) :
    b.Wake minWindow (numbered b.cursor.toInt.toNat (pushed.drop b.cursor.toInt.toNat)) := by
  have hc := h.cursor_eq
  have ha := h.acked
  have hl := h.length_slots
  have hr := h.room
  have hfew := h.few
  unfold ringCapacity at hr
  refine {
    fragments := fun _ => ?_
    shut := fun hs => absurd hw hs
    slots := fun piece hp => ?_
    few := ?_
    answered := fun readings hlen => h.answered_of_open hw (by rwa [length_numbered] at hlen) }
  · rw [map_fst_numbered,List.length_drop,← hc]
    congr 2
    omega
  · obtain ⟨i,hi,hn⟩ := mem_numbered hp
    rw [List.getElem?_drop] at hi
    have hlt := (List.getElem?_eq_some_iff.mp hi).1
    rw [hn,toInt_ofNat (by omega),h.slots,List.getElem?_drop,← hi]
    congr 1
    omega
  · rw [length_numbered,List.length_drop]
    omega

theorem Keeps.wake_of_shut (h : b.Keeps pushed) (hw : ¬ minWindow ≤ b.window)
    (hnone : b.highestSent.toInt = 0) : b.Wake minWindow [] where
  fragments := fun ho => absurd ho hw
  shut := fun _ => rfl
  slots := fun _ hp => by cases hp
  few := Nat.zero_le _
  answered := by
    intro readings hlen
    obtain ⟨r,rfl⟩ := List.length_eq_one_iff.mp hlen
    have hc := h.cursor_eq
    have h₁ := h.acked
    have h₂ := h.acked_le
    have h₃ := h.sent_le
    refine settled_of_rest (h.next_of_rest _ _ fun ho => hw ho.1) ?_
    rw [if_neg hw]
    omega

theorem Wake.length_le {pieces : List (Int32 × Bytes)} (h : b.Wake minWindow pieces) :
    pieces.length ≤ b.slots.length := by
  by_cases hw : minWindow ≤ b.window
  · have hcount := congrArg List.length (h.fragments hw)
    rw [List.length_map,List.length_map,List.length_range'] at hcount
    omega
  · rw [h.shut hw]
    exact Nat.zero_le _

/-- A burst that had fuel left is the steps up to the first rest. -/
theorem chain_of_burst {now threshold fuel : Nat}
    (hfuel : (burst now minWindow threshold fuel b).1.length < fuel) :
    (chain serve b (steps minWindow (List.replicate
      ((burst now minWindow threshold fuel b).1.length + 1) (now,threshold)))).1 =
      (burst now minWindow threshold fuel b).2 := by
  induction fuel generalizing b with
  | zero => cases hfuel
  | succ fuel ih =>
    rcases hnext : b.next now minWindow threshold with ⟨action,c⟩
    have hserve : (b.serve (.next now minWindow threshold)).1 = c := by rw [serve,hnext]
    cases action with
    | transmit fragment payload =>
      have hburst : burst now minWindow threshold (fuel + 1) b =
          ((fragment,payload) :: (burst now minWindow threshold fuel c).1,
            (burst now minWindow threshold fuel c).2) := by simp only [burst,hnext]
      rw [hburst,List.length_cons] at hfuel
      rw [hburst,List.length_cons,List.replicate_succ,steps,List.map_cons,chain_cons,hserve]
      exact ih (by omega)
    | idle rewound =>
      have hburst : burst now minWindow threshold (fuel + 1) b = ([],c) := by
        simp only [burst,hnext]
      rw [hburst]
      exact hserve

theorem Keeps.wake_of_flush (h : b.Keeps pushed) (hg : b.Gate minWindow) (now threshold : Nat) :
    b.Wake minWindow (b.flush now minWindow threshold).1 ∧
      (b.flush now minWindow threshold).2 = (chain serve b (steps minWindow (List.replicate
        ((b.flush now minWindow threshold).1.length + 1) (now,threshold)))).1 := by
  have hwake : b.Wake minWindow (b.flush now minWindow threshold).1 := by
    by_cases hw : minWindow ≤ b.window
    · obtain ⟨c,hflush,-⟩ := h.flush_of_open now threshold hw
      rw [hflush]
      exact h.wake_of_open hw
    · obtain ⟨c,hflush,-⟩ := h.flush_of_shut now threshold hw
      rw [hflush]
      exact h.wake_of_shut hw (hg.resolve_left hw)
  exact ⟨hwake,(chain_of_burst (Nat.lt_succ_of_le hwake.length_le)).symm⟩

theorem Effect.gate (he : Effect b q reply c)
    (hsame : ∀ now floor threshold, q = .next now floor threshold → floor = minWindow)
    (h : b.Gate minWindow) : c.Gate minWindow := by
  cases he with
  | passed wider | acknowledged _ _ wider => exact h.imp_left fun hw => Int32.le_trans hw wider
  | transmitted wide => exact .inl (hsame _ _ _ rfl ▸ wide)
  | _ => exact h

/-- All steps on the line so far asked for the same window. -/
def Uniform (requests : List Request) (minWindow : Int32) : Prop :=
  ∀ now floor threshold, .next now floor threshold ∈ requests → floor = minWindow

theorem Opened.gate {opened : Nat} (h : b.Opened opened) (hlogs : b.Logs log)
    (hsame : Uniform (log.map (·.1)) minWindow)
    (hfew : (b.slots ++ payloads log).length < fragmentLimit) : (b.after log).Gate minWindow := by
  refine h.induct (P := fun log => Uniform (log.map (·.1)) minWindow → (b.after log).Gate minWindow)
    (fun _ => .inr ?_) ?_ hlogs hfew hsame
  · change b.highestSent.toInt = 0
    rw [h.highest]
    rfl
  · intro log q reply c hc _ he ih hsame
    rw [List.map_append] at hsame
    rw [hc]
    refine he.gate ?_ (ih fun now floor threshold hm => hsame now floor threshold
      (List.mem_append_left _ hm))
    rintro now floor threshold rfl
    exact hsame now floor threshold (List.mem_append_right _ (List.mem_singleton_self _))

theorem Opened.wake {opened : Nat} (h : b.Opened opened) (hlogs : b.Logs log)
    (hsame : Uniform (log.map (·.1)) minWindow)
    (hfew : (b.slots ++ payloads log).length < fragmentLimit) :
    ∃ pieces, (b.after log).Wake minWindow pieces :=
  ⟨_,((h.steady_after hlogs hfew).keeps.wake_of_flush (h.gate hlogs hsame hfew) 0 0).1⟩

end Outbox

namespace Connection

open Sender (Settings minWindow dataFrame)

variable {x y : Connection} {log hs : List Happening}

/-- A connection whose remote has accepted sent nothing yet or has room in the window. -/
def Ready (x : Connection) : Prop := x.outbox.established = true → x.outbox.Gate minWindow

theorem Ready.pump (h : x.Ready) (hc : Conduct x (deeds log)) (hp : x.pumping = true)
    (now threshold : Nat) : (x.outbox.flush now minWindow threshold).2.Gate minWindow := by
  have he := hc.still hp
  have hkeeps := hc.keeps he
  by_cases hw : minWindow ≤ x.outbox.window
  · obtain ⟨c,hflush,hrest⟩ := hkeeps.flush_of_open now threshold hw
    rw [hflush]
    exact .inl (hrest.window ▸ hw)
  · obtain ⟨c,hflush,hrest⟩ := hkeeps.flush_of_shut now threshold hw
    rw [hflush]
    exact .inr (hrest.highest.trans ((h he).resolve_left hw))

theorem Ready.heed (h : x.Ready) (hc : Conduct x (deeds log)) (fragment window : Int32)
    (now : Nat) (he : (x.outbox.acknowledge fragment window now).2.established = true) :
    (x.outbox.acknowledge fragment window now).2.Gate minWindow := by
  cases hopen : x.outbox.established with
  | false =>
    rw [Outbox.acknowledge_of_not_established hopen,hopen] at he
    cases he
  | true => exact ((hc.keeps hopen).effect_acknowledge fragment window now).gate (by simp) (h hopen)

theorem Ready.stroke {settings : Settings} {asking lasting : Prop} (h : x.Ready)
    (hc : Conduct x (deeds log)) (hst : Stroke settings asking lasting x hs y) : y.Ready := by
  cases hst with
  | accept hl hk he =>
    rw [Outbox.establish,if_neg (by simp [Outbox.not_established_of_establish he])] at he
    obtain rfl := Option.some.inj he
    exact fun _ => .inr rfl
  | pump now hp _ _ => exact fun _ => h.pump hc hp now _
  | heed _ _ => exact h.heed hc _ _ _
  | _ => exact h

end Connection

namespace Sender

open Connection Outbox

variable {s : Sender} {c : ConnRef} {x : Connection}

theorem ready_along_play (settings : Settings) (ms : List Move) (c : ConnRef)
    (hf : Few (chronicle c (start settings) ms)) :
    ∀ x, ((start settings).play ms).1.conns[c]? = some x → x.Ready :=
  chronicle_induct (P := fun x _ => x.Ready) settings ms c
    (fun _ _ _ now he => by
      have hnot := (untouched_start now).not_established
      rw [Connection.start,hnot] at he
      cases he)
    fun _ _ _ _ hc h hst => h.stroke (hc hf).1 hst

/-- What a wake-up of a connection does whose remote has accepted. -/
structure Pumped (s : Sender) (c : ConnRef) (x : Connection) (now : Nat) : Prop where
  /-- It sends what steps on the line send up to their rest, and a sign of life. -/
  goes : x.closing = false → x.closed = false → ∃ pieces, x.outbox.Wake minWindow pieces ∧
    (s.onWake c now).2 = (pieces.map dataFrame ++ [lifeFrame]).map (.send c) ∧
    (s.onWake c now).1.conns[c]? = some
      { x with outbox := (chain serve x.outbox (steps minWindow
        (List.replicate (pieces.length + 1) (now,s.settings.resend.nanos)))).1 }
  stops : x.closing = true ∨ x.closed = true → (s.onWake c now).2 = [] ∧
    (s.onWake c now).1.conns[c]? = some { x with pumping := false }

theorem pumped {pushed : List Bytes} (hx : s.conns[c]? = some x) (hk : x.outbox.Keeps pushed)
    (hg : x.outbox.Gate minWindow) (hawake : x.pumping = true ∨ x.closing = true ∨ x.closed = true)
    (now : Nat) : s.Pumped c x now where
  goes := by
    intro hopen hup
    have hp : x.pumping = true := hawake.resolve_right (by simp [hopen,hup])
    obtain ⟨hwake,hend⟩ := hk.wake_of_flush hg now s.settings.resend.nanos
    refine ⟨_,hwake,?_,?_⟩
    · simp [onWake,hx,hp,hopen,hup]
    · simp [onWake,hx,hp,hopen,hup,modify,hend]
  stops := by
    intro hdone
    cases hp : x.pumping with
    | false =>
      have hstill : { x with pumping := false } = x := by rw [← hp]
      simp [onWake,hx,hp,hstill]
    | true => simp [onWake,hx,hp,hdone,modify]

theorem onAccept_sends {ds : List Deed} {window : Int32} {outbox : Outbox} {now : Nat}
    (hx : s.conns[c]? = some x) (hc : Conduct x ds)
    (he : x.outbox.establish window now = some outbox) (hopen : x.closing = false)
    (hup : x.closed = false) : (s.onAccept c x window now).2 = [.send c lifeFrame] := by
  obtain ⟨b,hb,hkeeps,-⟩ := (hc.untouched (not_established_of_establish he)).1.establish window now
  obtain rfl := Option.some.inj (he.symm.trans hb)
  have hnone : (outbox.flush now minWindow s.settings.resend.nanos).1 = [] := by
    by_cases hw : minWindow ≤ outbox.window
    · obtain ⟨c,hflush,-⟩ := hkeeps.flush_of_open now s.settings.resend.nanos hw
      rw [hflush,List.drop_nil,numbered]
    · obtain ⟨c,hflush,-⟩ := hkeeps.flush_of_shut now s.settings.resend.nanos hw
      rw [hflush]
  simp [onAccept,he,onWake,modify,wakeCalls,hx,hopen,hup,hnone]

namespace Clocked

variable {k : Clocked} {c : ConnRef}

theorem wake_mem_timers_iff {s : Sender} {d : ConnRef} :
    Timer.wake c ∈ timers s d ↔ d = c ∧ ∃ x, s.conns[c]? = some x ∧ x.pumping = true := by
  have hretry : Timer.wake c ∉
      if s.waiting.any fun w => w.call = .connect d then [Timer.retry d] else [] := by
    split <;> simp
  have htick : ∀ p : Prop, [Decidable p] → Timer.wake c ∉ if p then [Timer.tick d] else [] := by
    intro p _
    split <;> simp
  simp only [timers]
  split
  · rename_i hx
    constructor
    · exact fun h => absurd h hretry
    · rintro ⟨rfl,x,hx',-⟩
      rw [hx] at hx'
      cases hx'
  · rename_i x hx
    rw [List.mem_append,List.mem_append,or_iff_left (htick _),or_iff_right hretry]
    constructor
    · intro h
      split at h
      · rename_i hp
        obtain rfl := Timer.wake.inj (List.mem_singleton.mp h)
        exact ⟨rfl,x,hx,hp⟩
      · cases h
    · rintro ⟨rfl,y,hy,hp⟩
      obtain rfl := Option.some.inj (hx.symm.trans hy)
      rw [if_pos hp]
      exact List.mem_singleton_self _

/-- The alarm for wake-ups is that of a connection which sends what is buffered. -/
theorem wake_mem_active_iff {s : Sender} :
    Timer.wake c ∈ active s ↔ ∃ x, s.conns[c]? = some x ∧ x.pumping = true := by
  simp only [active,List.mem_flatMap,List.mem_range,wake_mem_timers_iff]
  constructor
  · rintro ⟨d,-,-,h⟩
    exact h
  · rintro ⟨x,hx,hp⟩
    exact ⟨c,(List.getElem?_eq_some_iff.mp hx).1,rfl,x,hx,hp⟩

theorem get?_handle (k : Clocked) (e : Event) (c : ConnRef) :
    (k.handle e).1.alarms.get? (.wake c) =
      if Timer.wake c ∈ active (k.handle e).1.sender then
        some ((k.alarms.get? (.wake c)).getD (k.now + k.periods.wake.nanos))
      else none :=
  Alarms.get?_sync ..

/-- The next wake-up is a period from now, if there is to be one. -/
structure Asleep (c : ConnRef) (now : Nat) (wake : Duration) (k : Clocked) : Prop where
  now_eq : k.now = now
  wake_eq : k.periods.wake = wake
  alarm : ∀ t, k.alarms.get? (.wake c) = some t → t = now + wake.nanos

theorem Asleep.handled {now : Nat} {wake : Duration} (h : Asleep c now wake k) (e : Event) :
    Asleep c now wake (k.handle e).1 := by
  refine ⟨h.now_eq,h.wake_eq,fun t ht => ?_⟩
  rw [get?_handle,h.now_eq,h.wake_eq] at ht
  split at ht
  · cases hold : k.alarms.get? (.wake c) with
    | none =>
      rw [hold] at ht
      exact (Option.some.inj ht).symm
    | some t' =>
      rw [hold] at ht
      exact (Option.some.inj ht).symm.trans (h.alarm t' hold)
  · cases ht

/-- After anything that has happened there is an alarm exactly for a connection which sends. -/
theorem Asleep.get?_chain {now : Nat} {wake : Duration} (h : Asleep c now wake k)
    {es : List Event} (hes : es ≠ []) :
    (chain handle k es).1.alarms.get? (.wake c) =
      if Timer.wake c ∈ active (chain handle k es).1.sender then some (now + wake.nanos)
      else none := by
  obtain ⟨early,e,rfl⟩ := (List.eq_nil_or_concat es).resolve_left hes
  have hbefore : Asleep c now wake (chain handle k early).1 :=
    chain_induct h (fun _ h e => h.handled e) early
  have hlast : (chain handle k (early ++ [e])).1 = ((chain handle k early).1.handle e).1 := by
    rw [chain_append]
    rfl
  rw [List.concat_eq_append,hlast,get?_handle,hbefore.now_eq,hbefore.wake_eq]
  split
  · cases hold : (chain handle k early).1.alarms.get? (.wake c) with
    | none => rfl
    | some t => rw [Option.getD_some,hbefore.alarm t hold]
  · rfl

/-- Between two wake-ups there is a period. -/
theorem get?_advance {t now : Nat} (hdue : k.alarms.get? (.wake c) = some t) (ht : t ≤ now) :
    (k.advance now).1.alarms.get? (.wake c) =
      if Timer.wake c ∈ active (k.advance now).1.sender then some (now + k.periods.wake.nanos)
      else none := by
  have hrearmed : Asleep c now k.periods.wake
      { k with now, alarms := k.alarms.rearm k.period now } := by
    refine ⟨rfl,rfl,fun t' ht' => ?_⟩
    simp only [Alarms.get?_rearm,hdue,Option.map_some,if_pos ht,Option.some.injEq] at ht'
    exact ht'.symm
  refine hrearmed.get?_chain fun hnil => ?_
  have hmem : Timer.wake c ∈ k.alarms.due now :=
    List.mem_map.mpr ⟨_,List.mem_filter.mpr ⟨Dict.mem_of_get? hdue,by simpa using ht⟩,rfl⟩
  rw [List.map_eq_nil_iff.mp hnil] at hmem
  cases hmem

end Clocked

/-- A wake-up comes to an end. From every outbox to which requests were made since its handshake,
steps on the line send what is after the cursor and rest; a wake-up of a connection is such steps
and a sign of life, the first one a sign of life alone; and there is a period before the next. -/
theorem wakes_end :
    (∀ (made opened : Nat) (early requests : List Request) (window floor : Int32) (b : Outbox),
      (chain serve (Outbox.start made) early).1.establish window opened = some b →
      Uniform requests floor →
      (b.slots ++ Log.payloads (chain serve b requests).2).length < Signed.fragmentLimit →
      ∃ pieces, (chain serve b requests).1.Wake floor pieces) ∧
    (∀ (settings : Settings) (ms : List Move) (c : ConnRef) (x : Connection) (now : Nat),
      Few (chronicle c (start settings) ms) → ((start settings).play ms).1.conns[c]? = some x →
      (x.outbox.established = true → ((start settings).play ms).1.Pumped c x now) ∧
        ∀ window outbox, x.outbox.establish window now = some outbox → x.closing = false →
          x.closed = false →
          (((start settings).play ms).1.onAccept c x window now).2 = [.send c lifeFrame]) ∧
    ∀ (k : Clocked) (c : ConnRef) (t now : Nat), k.alarms.get? (.wake c) = some t → t ≤ now →
      ∀ later, (k.advance now).1.alarms.get? (.wake c) = some later ↔
        later = now + k.periods.wake.nanos ∧
          ∃ x, (k.advance now).1.sender.conns[c]? = some x ∧ x.pumping = true := by
  refine ⟨?_,?_,?_⟩
  · intro made opened early requests window floor b hopen hsame hfew
    have hwake := (opened_of_establish hopen).wake (b.logs_chain requests)
      (by rwa [map_fst_chain_serve]) hfew
    rwa [after,map_fst_chain_serve] at hwake
  · intro settings ms c x now hf hx
    have hc := (known_play settings ms c).conduct hf x hx
    refine ⟨fun he => ?_,fun window outbox he hopen hup => onAccept_sends hx hc he hopen hup⟩
    exact pumped hx (hc.keeps he) (ready_along_play settings ms c hf x hx he) (hc.awake he) now
  · intro k c t now hdue ht later
    rw [Clocked.get?_advance hdue ht,← Clocked.wake_mem_active_iff,Option.ite_none_right_eq_some,
      Option.some.injEq,eq_comm (a := later),and_comm]

def holdByte (bound remote : Address) : List Move :=
  [.event (.connect bound remote none 0),
    .event (.datagram 0 remote (Frame.encode ⟨.acon,0,2000,[]⟩) 0),.retry 0,
    .event (.send 1 [97])]

def accepted (bound remote : Address) (settings : Settings) : Clocked :=
  (chain Clocked.handle (.start settings ⟨.ofMillis 500,.ofMillis 100⟩)
    [.connect bound remote none 0,
      .datagram 0 remote (Frame.encode ⟨.acon,0,2000,[]⟩) 0]).1

theorem wakes_end_byte :
    let bound : Address := ⟨.localhost,0,4001⟩
    let remote : Address := ⟨.localhost,0,4000⟩
    let settings : Settings := ⟨.ofMillis 1500,.ofMillis 500,.ofMillis 100⟩
    let sender := ((start settings).play (holdByte bound remote)).1
    (∃ pieces, (chain serve ⟨0,8,0,[[97]],0,0⟩ [.push [98],.next 0 1 5]).1.Wake 1 pieces ∧
      pieces.map (·.1) = [2]) ∧
    (∃ x, sender.conns[0]? = some x ∧ sender.Pumped 0 x 5) ∧
    (sender.onWake 0 5).2 = [.send 0 (dataFrame (1,[97])),.send 0 lifeFrame] ∧
    ((accepted bound remote settings).advance 100000000).1.alarms.get? (.wake 0) =
      some 200000000 := by
  intro bound remote settings sender
  have hf : Few (chronicle 0 (start settings) (holdByte bound remote)) := by
    unfold Few
    decide +kernel
  obtain ⟨x,hx⟩ : ∃ x, sender.conns[0]? = some x :=
    Option.isSome_iff_exists.mp (by decide +kernel)
  have hopen : (sender.conns[0]?.map (·.outbox.established)) = some true := by decide +kernel
  have he : x.outbox.established = true := by
    rw [hx] at hopen
    exact Option.some.inj hopen
  obtain ⟨y,hy⟩ : ∃ y,
      ((accepted bound remote settings).advance 100000000).1.sender.conns[0]? = some y :=
    Option.isSome_iff_exists.mp (by decide +kernel)
  have hpumping : ((accepted bound remote settings).advance 100000000).1.sender.conns[0]?.map
      (·.pumping) = some true := by decide +kernel
  have hp : y.pumping = true := by
    rw [hy] at hpumping
    exact Option.some.inj hpumping
  obtain ⟨hsteps,hplay,hclock⟩ := wakes_end
  have hsame : Uniform [.push [98],.next 0 1 5] 1 := by
    intro now floor threshold hm
    simp only [List.mem_cons,reduceCtorEq,Request.next.injEq,List.not_mem_nil,false_or,
      or_false] at hm
    exact hm.2.1
  obtain ⟨pieces,hwake⟩ := hsteps 0 0 [.push [97]] [.push [98],.next 0 1 5] 8 1 _ rfl hsame
    (by decide +kernel)
  refine ⟨⟨pieces,hwake,(hwake.fragments (by decide +kernel)).trans (by decide +kernel)⟩,
    ⟨x,hx,(hplay settings _ 0 x 5 hf hx).1 he⟩,by decide +kernel,?_⟩
  exact (hclock _ 0 100000000 100000000 (by decide +kernel) (by decide) _).mpr
    ⟨by decide +kernel,y,hy,hp⟩

end Sender
end ReliableTransport
