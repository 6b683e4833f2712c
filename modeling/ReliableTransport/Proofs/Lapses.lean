import ReliableTransport.Proofs.Care
import ReliableTransport.Proofs.Expiry

/-! The tick at which a receiver gives a peer up. It is the first tick after the peer was accepted
such that the peer has asked to close since, or such that more periods of silence than are tolerated
have gone by since it was accepted or last heard, whichever is later (`Minds.falls_iff`). -/
namespace ReliableTransport

section

variable {α : Type} {tick : α} {due : List α → Prop} {log more : List α}

def Struck (tick : α) (due : List α → Prop) (log : List α) : Prop :=
  ∃ before after, log = before ++ tick :: after ∧ due (before ++ [tick])

def Strikes (tick : α) (due : List α → Prop) (log : List α) : Prop :=
  due (log ++ [tick]) ∧ ¬ Struck tick due log

theorem Struck.append (h : Struck tick due log) (more : List α) :
    Struck tick due (log ++ more) := by
  obtain ⟨before,after,rfl,hd⟩ := h
  exact ⟨before,after ++ more,by simp,hd⟩

theorem struck_append_iff (h : tick ∉ more) :
    Struck tick due (log ++ more) ↔ Struck tick due log := by
  refine ⟨?_,fun hs => hs.append more⟩
  rintro ⟨before,after,hsplit,hd⟩
  obtain ⟨mid,rfl⟩ := Connection.Conduct.split_of_not_mem hsplit h
  exact ⟨before,mid,rfl,hd⟩

theorem struck_concat_iff :
    Struck tick due (log ++ [tick]) ↔ Struck tick due log ∨ due (log ++ [tick]) := by
  constructor
  · rintro ⟨before,after,hsplit,hd⟩
    rcases List.append_eq_append_iff.mp hsplit with ⟨mid,rfl,hone⟩ | ⟨mid,rfl,hone⟩
    · cases mid with
      | nil =>
        rw [List.append_nil] at hd
        exact .inr hd
      | cons b mid => simp at hone
    · cases mid with
      | nil =>
        rw [List.append_nil]
        exact .inr hd
      | cons b mid =>
        obtain ⟨rfl,_⟩ := List.cons.inj hone
        exact .inl ⟨before,mid,rfl,hd⟩
  · rintro (h | h)
    · exact h.append [tick]
    · exact ⟨log,[],rfl,h⟩

/-- When the tick comes alone, with it comes the first one that is due, and with nothing else. -/
theorem strikes_iff {comes : Prop} (hmore : tick ∈ more → comes ∧ more = [tick])
    (hcomes : comes → due (log ++ [tick]) → more = [tick]) :
    ¬ Struck tick due log ∧ Struck tick due (log ++ more) ↔ comes ∧ Strikes tick due log := by
  constructor
  · rintro ⟨hnot,hst⟩
    by_cases hmem : tick ∈ more
    · obtain ⟨hc,rfl⟩ := hmore hmem
      exact ⟨hc,(struck_concat_iff.mp hst).resolve_left hnot,hnot⟩
    · exact absurd ((struck_append_iff hmem).mp hst) hnot
  · rintro ⟨hc,hdue,hnot⟩
    rw [hcomes hc hdue]
    exact ⟨hnot,struck_concat_iff.mpr (.inr hdue)⟩

end

/-- What is tolerated are so many periods of silence, and the counter can go past them. -/
structure Silence.Measure (threshold period : Duration) (ticks : Nat) : Prop where
  bounded : Silence.Bounded threshold
  positive : 0 < period.nanos
  scaled : threshold.nanos = period.nanos*ticks

/-- The periods of silence since a record was accepted or last heard, whichever is later, and
whether its peer has asked to close since it was accepted. -/
def Sign.attend (heed : Option (Nat × Bool)) : Sign → Option (Nat × Bool)
  | .joined => some (0,false)
  | .heard frame => heed.map fun e =>
    if frame.kind = .data then (0,e.2) else if frame.kind = .rcls then (e.1,true) else e
  | .ticked => heed.map fun e => (e.1 + 1,e.2)

def attention (log : List Sign) : Option (Nat × Bool) := log.foldl Sign.attend none

/-- The peer was accepted, and it has asked to close or was silent for too long. -/
def Due (ticks : Nat) (log : List Sign) : Prop :=
  match attention log with
  | none => False
  | some (n,left) => left = true ∨ ticks < n

theorem attention_append (log more : List Sign) :
    attention (log ++ more) = more.foldl Sign.attend (attention log) :=
  List.foldl_append

namespace Vital

variable {threshold period : Duration} {ticks : Nat} {v w : Vital} {log signs : List Sign}

/-- A record is connected, with `n` periods of silence counted unless its peer asked to close. -/
structure Serves (threshold period : Duration) (v : Vital) (n : Nat) (left : Bool) : Prop where
  seated : v.seated = true
  checking : v.checking = true
  closing : v.closing = left
  forced : left = true → v.silence.elapsed.nanos = threshold.nanos + Silence.margin.nanos
  spent : left = false → v.silence.Spent period n

structure Attended (threshold period : Duration) (ticks : Nat) (v : Vital) (log : List Sign) :
    Prop where
  limit : v.silence.threshold = threshold
  waiting : attention log = none → v.Waits ∧ v.closing = false
  serving : v.closed = false → ∀ n left, attention log = some (n,left) →
    Serves threshold period v n left
  torn : v.closed = true → v.checking = false ∧ v.seated = false
  struck : v.closed = true ↔ Struck .ticked (Due ticks) log

theorem attended_start (threshold period : Duration) (ticks : Nat) :
    Attended threshold period ticks ⟨.start threshold,false,false,false,false⟩ [] where
  limit := rfl
  waiting := fun _ => ⟨⟨rfl,rfl,rfl⟩,rfl⟩
  serving := fun _ n left h => by cases h
  torn := fun h => by cases h
  struck := by simp [Struck]

/-- A record that is connected, or whose silence is counted, was accepted and is not torn down. -/
theorem Attended.served (h : Attended threshold period ticks v log)
    (hs : v.seated = true ∨ v.checking = true) : v.closed = false ∧
      ∃ n left, attention log = some (n,left) ∧ Serves threshold period v n left := by
  have ho : v.closed = false := Bool.eq_false_iff.mpr fun hc => by
    rcases hs with hs | hs
    · rw [(h.torn hc).2] at hs
      cases hs
    · rw [(h.torn hc).1] at hs
      cases hs
  cases ha : attention log with
  | some e => exact ⟨ho,e.1,e.2,rfl,h.serving ho e.1 e.2 ha⟩
  | none =>
    obtain ⟨hw,_⟩ := h.waiting ha
    rcases hs with hs | hs
    · rw [hw.seated] at hs
      cases hs
    · rw [hw.checking] at hs
      cases hs

/-- After a sign that is not the end of it a record serves on. -/
theorem Attended.serve (h : Attended threshold period ticks v log) (ho : v.closed = false)
    {a : Sign} {n : Nat} {left : Bool} (ha : attention (log ++ [a]) = some (n,left))
    (hl : w.silence.threshold = threshold) (hw : w.closed = false)
    (hs : Serves threshold period w n left) (hn : a = .ticked → ¬ Due ticks (log ++ [.ticked])) :
    Attended threshold period ticks w (log ++ [a]) where
  limit := hl
  waiting := fun hnone => by
    rw [ha] at hnone
    cases hnone
  serving := fun _ n' left' ha' => by
    rw [ha] at ha'
    obtain ⟨rfl,rfl⟩ := Prod.mk.inj (Option.some.inj ha')
    exact hs
  torn := fun hc => by
    rw [hw] at hc
    cases hc
  struck := by
    have hsame : ¬ Struck .ticked (Due ticks) log := fun hst => by
      rw [h.struck.mpr hst] at ho
      cases ho
    refine iff_of_false (by simp [hw]) fun hst => ?_
    by_cases hat : a = .ticked
    · subst hat
      exact absurd (struck_concat_iff.mp hst) (not_or.mpr ⟨hsame,hn rfl⟩)
    · exact absurd ((struck_append_iff (by simpa [eq_comm] using hat)).mp hst) hsame

theorem attention_ticked {n : Nat} {left : Bool} (ha : attention log = some (n,left)) :
    attention (log ++ [.ticked]) = some (n + 1,left) := by
  rw [attention_append,ha]
  rfl

theorem due_ticked_iff {n : Nat} {left : Bool} (ha : attention log = some (n,left)) :
    Due ticks (log ++ [.ticked]) ↔ left = true ∨ ticks < n + 1 := by
  simp [Due,attention_ticked ha]

theorem Serves.expired_tick_iff (h : Serves threshold period v n left)
    (hl : v.silence.threshold = threshold) (hm : Silence.Measure threshold period ticks) :
    (v.silence.tick period).expired = true ↔ left = true ∨ ticks < n + 1 := by
  have hb : Silence.Bounded v.silence.threshold := by
    rw [hl]
    exact hm.bounded
  cases left with
  | true =>
    have helapsed := h.forced rfl
    rw [← hl] at helapsed
    simp [Silence.expired_tick helapsed hb period]
  | false =>
    have hspent := (h.spent rfl).tick
    rw [hspent.expired_iff hb hm.positive (by rw [Silence.threshold_tick,hl]; exact hm.scaled)]
    simp

theorem Attended.past (h : Attended threshold period ticks v log) (ho : v.closed = true)
    (a : Sign) : Attended threshold period ticks v (log ++ [a]) where
  limit := h.limit
  waiting := fun hnone => by
    have hsome : attention log ≠ none := fun ha => by
      rw [(h.waiting ha).1.closed] at ho
      cases ho
    obtain ⟨e,he⟩ := Option.ne_none_iff_exists'.mp hsome
    rw [attention_append,he] at hnone
    cases a <;> cases hnone
  serving := fun hc => by
    rw [ho] at hc
    cases hc
  torn := h.torn
  struck := iff_of_true ho ((h.struck.mp ho).append _)

theorem Attended.before (h : Attended threshold period ticks v log) (ha : attention log = none)
    {a : Sign} (hn : a ≠ .joined) : Attended threshold period ticks v (log ++ [a]) := by
  have hnone : attention (log ++ [a]) = none := by
    rw [attention_append,ha]
    cases a with
    | joined => exact absurd rfl hn
    | _ => rfl
  have hv := h.waiting ha
  exact {
    limit := h.limit
    waiting := fun _ => hv
    serving := fun _ _ _ he => by
      rw [hnone] at he
      cases he
    torn := h.torn
    struck := by
      rw [h.struck]
      refine ⟨fun hs => hs.append _,fun hs => ?_⟩
      cases a with
      | ticked =>
        refine (struck_concat_iff.mp hs).resolve_right ?_
        rw [Due,hnone]
        exact id
      | _ => exact (struck_append_iff (by simp)).mp hs }

theorem Attended.stay (h : Attended threshold period ticks v log) {a : Sign} (hn : a ≠ .joined)
    (hserve : ∀ n left, v.closed = false → attention log = some (n,left) →
      Serves threshold period v n left → Attended threshold period ticks v (log ++ [a])) :
    Attended threshold period ticks v (log ++ [a]) := by
  cases ho : v.closed with
  | true => exact h.past ho a
  | false =>
    cases ha : attention log with
    | none => exact h.before ha hn
    | some e => exact hserve e.1 e.2 ho ha (h.serving ho e.1 e.2 ha)

theorem Attended.join (h : Attended threshold period ticks v log) (hw : v.Waits) :
    Attended threshold period ticks v.join (log ++ [.joined]) := by
  cases ha : attention log with
  | some e =>
    have hseat := (h.serving hw.closed e.1 e.2 ha).seated
    rw [hw.seated] at hseat
    cases hseat
  | none =>
    have ha' : attention (log ++ [.joined]) = some (0,false) := by
      rw [attention_append,ha]
      rfl
    refine h.serve hw.closed ha' h.limit hw.closed ⟨rfl,rfl,(h.waiting ha).2,fun hl => ?_,
      fun _ => ?_⟩ fun he => by cases he
    · cases hl
    · exact Silence.spent_reset v.silence period

/-- Data that a record disregards comes after its peer asked to close, when silence counts no
more. -/
theorem Attended.ignore (h : Attended threshold period ticks v log) {frame : Frame}
    (hd : frame.kind = .data → v.seated = true → v.closing = true)
    (hl : frame.kind = .rcls → v.seated = false) :
    Attended threshold period ticks v (log ++ [.heard frame]) := by
  refine h.stay (by simp) fun n left ho ha hserve => ?_
  have hleft : frame.kind = .data → left = true := fun hk =>
    hserve.closing.symm.trans (hd hk hserve.seated)
  have hstay : frame.kind ≠ .rcls := fun hk => by
    have hout := hl hk
    rw [hserve.seated] at hout
    cases hout
  have ha' : attention (log ++ [.heard frame]) =
      some (if frame.kind = .data then 0 else n,left) := by
    simp only [attention_append,ha,List.foldl_cons,List.foldl_nil,Sign.attend,Option.map_some,
      if_neg hstay]
    split
    · rfl
    · rfl
  refine h.serve ho ha' h.limit ho ⟨hserve.seated,hserve.checking,hserve.closing,hserve.forced,
    fun hf => ?_⟩ fun he => by cases he
  rw [if_neg fun hk => by rw [hleft hk] at hf; cases hf]
  exact hserve.spent hf

theorem Attended.heed (h : Attended threshold period ticks v log) {frame : Frame}
    (hk : frame.kind = .data) (hs : v.seated = true) (hc : v.closing = false) :
    Attended threshold period ticks { v with silence := v.silence.reset }
      (log ++ [.heard frame]) := by
  obtain ⟨ho,n,left,ha,hserve⟩ := h.served (.inl hs)
  have hleft : left = false := hserve.closing.symm.trans hc
  have ha' : attention (log ++ [.heard frame]) = some (0,left) := by
    simp [attention_append,ha,Sign.attend,hk]
  refine h.serve ho ha' h.limit ho ⟨hs,hserve.checking,hserve.closing,fun hl => ?_,fun _ => ?_⟩
    fun he => by cases he
  · rw [hleft] at hl
    cases hl
  · exact Silence.spent_reset v.silence period

theorem Attended.leave (h : Attended threshold period ticks v log)
    (hm : Silence.Measure threshold period ticks) {frame : Frame} (hk : frame.kind = .rcls)
    (hs : v.seated = true) :
    Attended threshold period ticks { v with closing := true, silence := v.silence.expire }
      (log ++ [.heard frame]) := by
  obtain ⟨ho,n,left,ha,hserve⟩ := h.served (.inl hs)
  have ha' : attention (log ++ [.heard frame]) = some (n,true) := by
    simp [attention_append,ha,Sign.attend,hk]
  refine h.serve ho ha' ((Silence.threshold_expire _).trans h.limit) ho
    ⟨hs,hserve.checking,rfl,fun _ => ?_,fun hl => by cases hl⟩ fun he => by cases he
  have helapsed := Silence.elapsed_expire (s := v.silence) (by rw [h.limit]; exact hm.bounded)
  rwa [h.limit] at helapsed

theorem Attended.pass (h : Attended threshold period ticks v log) (hc : v.checking = false) :
    Attended threshold period ticks v (log ++ [.ticked]) :=
  h.stay (by simp) fun _ _ _ _ hserve => by
    have hcheck := hserve.checking
    rw [hc] at hcheck
    cases hcheck

theorem Attended.wait (h : Attended threshold period ticks v log)
    (hm : Silence.Measure threshold period ticks) (hc : v.checking = true)
    (he : (v.silence.tick period).expired = false) :
    Attended threshold period ticks { v with silence := v.silence.tick period }
      (log ++ [.ticked]) := by
  obtain ⟨ho,n,left,ha,hserve⟩ := h.served (.inr hc)
  have hnot : ¬ (left = true ∨ ticks < n + 1) := by
    rw [← hserve.expired_tick_iff h.limit hm,he]
    simp
  refine h.serve ho (attention_ticked ha) h.limit ho ⟨hserve.seated,hc,hserve.closing,fun hl => ?_,
    fun hl => (hserve.spent hl).tick⟩ fun _ => ?_
  · exact absurd (.inl hl) hnot
  · rw [due_ticked_iff ha]
    exact hnot

theorem Attended.lapse (h : Attended threshold period ticks v log)
    (hm : Silence.Measure threshold period ticks) (hc : v.checking = true)
    (he : (v.silence.tick period).expired = true) :
    Attended threshold period ticks
      { v with
        silence := v.silence.tick period
        closed := true
        checking := false
        seated := false }
      (log ++ [.ticked]) := by
  obtain ⟨_,n,left,ha,hserve⟩ := h.served (.inr hc)
  have hdue : Due ticks (log ++ [.ticked]) := by
    rw [due_ticked_iff ha,← hserve.expired_tick_iff h.limit hm]
    exact he
  exact {
    limit := h.limit
    waiting := fun hnone => by
      rw [attention_ticked ha] at hnone
      cases hnone
    serving := fun hcl => by cases hcl
    torn := fun _ => ⟨rfl,rfl⟩
    struck := iff_of_true rfl (struck_concat_iff.mpr (.inr hdue)) }

theorem Attended.care (h : Attended threshold period ticks v log)
    (hm : Silence.Measure threshold period ticks) (hc : Care period v signs w) :
    Attended threshold period ticks w (log ++ signs) := by
  cases hc with
  | rest =>
    rw [List.append_nil]
    exact h
  | join hw => exact h.join hw
  | ignore hd hl => exact h.ignore hd hl
  | heed hk hs hc => exact h.heed hk hs hc
  | leave hk hs => exact h.leave hm hk hs
  | pass hc => exact h.pass hc
  | wait hc he => exact h.wait hm hc he
  | lapse hc he => exact h.lapse hm hc he

end Vital

namespace Receiver

open Vital (Attended Care)

variable {settings : Settings} {ticks : Nat} {r : Receiver} {p : PeerId} {log : List Sign}
  {m : Move}

def fallen (r : Receiver) (p : PeerId) : Bool := (r.registry.vital p).any (·.closed)

def Falls (r : Receiver) (p : PeerId) (m : Move) : Prop :=
  r.fallen p = false ∧ (r.make m).1.fallen p = true

/-- What is known of a receiver and one of its records whose diary is `log`. -/
structure Minds (settings : Settings) (ticks : Nat) (r : Receiver) (p : PeerId)
    (log : List Sign) : Prop where
  same : r.settings = settings
  sound : r.Sound
  tidy : r.registry.Tidy
  fresh : r.registry.vital p = none → log = []
  attended : ∀ v, r.registry.vital p = some v →
    Attended settings.threshold settings.period ticks v log

theorem make_settings (r : Receiver) (m : Move) : (r.make m).1.settings = r.settings := by
  cases m with
  | event e => exact react_settings r e
  | retry k => exact (poll_alike r k).1

theorem make_closed (m : Move) (h : r.closing = true) : (r.make m).1.closing = true := by
  cases m with
  | event e => exact react_closed h
  | retry k => exact (poll_alike r k).2.trans h

theorem open_of_make (h : (r.make m).1.closing = false) : r.closing = false :=
  Bool.eq_false_iff.mpr fun hc => by
    rw [make_closed m hc] at h
    cases h

theorem open_of_play (ms : List Move) (h : (r.play ms).1.closing = false) : r.closing = false := by
  induction ms generalizing r with
  | nil => exact h
  | cons m ms ih => exact open_of_make (ih h)

theorem Minds.make (h : Minds settings ticks r p log)
    (hm : Silence.Measure settings.threshold settings.period ticks)
    (hopen : (r.make m).1.closing = false) :
    Minds settings ticks (r.make m).1 p (log ++ r.signs p m) := by
  have hchange := make_change h.sound m
  have hcares := make_cares h.sound h.tidy hopen p
  rw [Cares,h.same] at hcares
  exact {
    same := (make_settings r m).trans h.same
    sound := h.sound.make m
    tidy := hchange.tidy h.tidy
    fresh := by
      intro hnone
      cases hv : r.registry.vital p with
      | none =>
        rw [h.fresh hv,signs_of_none hv (by rw [Registry.seated,hnone]; rfl)]
        rfl
      | some v =>
        obtain ⟨w,hw,_⟩ := hcares v hv
        rw [hnone] at hw
        cases hw
    attended := by
      intro w hw
      cases hv : r.registry.vital p with
      | none =>
        obtain rfl := hchange.enlists h.sound hv hw
        rw [h.fresh hv,signs_of_none hv (by rw [Registry.seated,hw]; rfl),h.same]
        exact Vital.attended_start _ _ _
      | some v =>
        obtain ⟨w',hw',hcare⟩ := hcares v hv
        rw [hw] at hw'
        rw [Option.some.inj hw']
        exact (h.attended v hv).care hm hcare }

theorem Minds.play (h : Minds settings ticks r p log)
    (hm : Silence.Measure settings.threshold settings.period ticks) (ms : List Move)
    (hopen : (r.play ms).1.closing = false) :
    Minds settings ticks (r.play ms).1 p (log ++ diary p r ms) := by
  induction ms generalizing r log with
  | nil =>
    rw [diary,tally,List.append_nil]
    exact h
  | cons m ms ih =>
    rw [diary,tally,← List.append_assoc]
    exact ih (h.make hm (open_of_play ms hopen)) hopen

theorem minds_start (settings : Settings) (ticks : Nat) (p : PeerId) :
    Minds settings ticks (start settings) p [] where
  same := rfl
  sound := sound_start settings
  tidy := tidy_start settings
  fresh := fun _ => rfl
  attended := by simp [start,Registry.vital,Registry.empty]

theorem of_signs_ticked (h : .ticked ∈ r.signs p m) :
    m = .event (.tick p) ∧ r.signs p m = [.ticked] := by
  unfold signs at h ⊢
  split at h
  · split at h
    · cases h
    · unfold noted at h
      split at h
      · simp at h
      · cases h
  · rename_i q
    split at h
    · rename_i hq
      rw [hq.1]
      exact ⟨rfl,by rw [if_pos ⟨rfl,hq.2⟩]⟩
    · cases h
  · unfold Vital.entered at h
    split at h
    · simp at h
    · cases h

/-- When a receiver that is not closed tears down the record `p`, given the moves `ms` by now. -/
structure Lapses (ticks : Nat) (settings : Settings) (ms : List Move) (p : PeerId) (m : Move) :
    Prop where
  falls : Falls ((start settings).play ms).1 p m ↔
    m = .event (.tick p) ∧ Strikes .ticked (Due ticks) (diary p (start settings) ms)
  gone : Falls ((start settings).play ms).1 p m →
    (((start settings).play ms).1.make m).1.registry.seated p = false
  once : ((start settings).play ms).1.fallen p = true →
    ((start settings).play ms).1.onTick p = ((start settings).play ms).1

theorem Minds.fallen_iff (h : Minds settings ticks r p log) :
    r.fallen p = true ↔ Struck .ticked (Due ticks) log := by
  unfold fallen
  cases hv : r.registry.vital p with
  | none => simp [h.fresh hv,Struck]
  | some v => exact (h.attended v hv).struck

theorem Minds.over (h : Minds settings ticks r p log) (hf : r.fallen p = true) :
    r.registry.seated p = false ∧ r.onTick p = r := by
  unfold fallen at hf
  cases hv : r.registry.vital p with
  | none =>
    rw [hv] at hf
    cases hf
  | some v =>
    rw [hv] at hf
    obtain ⟨hcheck,hseat⟩ := (h.attended v hv).torn hf
    obtain ⟨x,hx,rfl⟩ := Option.map_eq_some_iff.mp hv
    have hx' : x.checking = false := hcheck
    refine ⟨by rw [Registry.seated,hv]; exact hseat,?_⟩
    simp only [onTick,hx,hx',Bool.false_eq_true,if_false]

theorem Minds.falls_iff (h : Minds settings ticks r p log)
    (hm : Silence.Measure settings.threshold settings.period ticks)
    (hopen : (r.make m).1.closing = false) :
    Falls r p m ↔ m = .event (.tick p) ∧ Strikes .ticked (Due ticks) log := by
  unfold Falls
  rw [(h.make hm hopen).fallen_iff,← Bool.not_eq_true,h.fallen_iff]
  refine strikes_iff of_signs_ticked ?_
  rintro rfl hdue
  cases hv : r.registry.vital p with
  | none =>
    rw [h.fresh hv] at hdue
    cases hdue
  | some v =>
    obtain ⟨x,hx,_⟩ := Option.map_eq_some_iff.mp hv
    simp [signs,addr,hx]

theorem lapses_play (hm : Silence.Measure settings.threshold settings.period ticks)
    (ms : List Move) (p : PeerId) {m : Move}
    (hopen : (((start settings).play ms).1.make m).1.closing = false) :
    Lapses ticks settings ms p m := by
  have h := (minds_start settings ticks p).play hm ms (open_of_make hopen)
  exact {
    falls := h.falls_iff hm hopen
    gone := fun hf => ((h.make hm hopen).over hf.2).1
    once := fun hf => (h.over hf).2 }

end Receiver

end ReliableTransport
