import ReliableTransport.Proofs.Chronicle

/-! When a sender gives a connection up. The counter of a remote's silence can be read off the
chronicle of the connection (`Paced`): it says how many periods have gone by since the remote
accepted or last acknowledged something, and a requested close takes it past what is tolerated. A
close that is asked for before the remote accepts is forgotten by the counter when it does: the
connection stays marked as closing, but lives on. -/
namespace ReliableTransport

namespace Silence

/-- So many periods of silence were counted, as far as a duration can tell. -/
def Spent (s : Silence) (period : Duration) (n : Nat) : Prop :=
  s.elapsed.nanos = min (n*period.nanos) (Duration.limit - 1)

/-- The counter can go past the threshold. -/
def Bounded (threshold : Duration) : Prop := threshold.nanos + margin.nanos < Duration.limit

instance (threshold : Duration) : Decidable (Bounded threshold) :=
  inferInstanceAs (Decidable (_ < _))

theorem margin_pos : 0 < margin.nanos := by decide

variable {s : Silence} {threshold period : Duration} {n ticks : Nat}

theorem spent_start (threshold period : Duration) : (start threshold).Spent period 0 := by
  simp [Spent,start]

theorem spent_reset (s : Silence) (period : Duration) : s.reset.Spent period 0 := by
  simp [Spent,reset]

theorem Spent.tick (h : s.Spent period n) : (s.tick period).Spent period (n + 1) := by
  unfold Spent at h ⊢
  simp only [Silence.tick,Duration.nanos_addClamped,h,Nat.succ_mul]
  omega

/-- The counter is past the threshold exactly if there were more periods than are tolerated. -/
theorem Spent.expired_iff (h : s.Spent period n) (hb : Bounded s.threshold)
    (hp : 0 < period.nanos) (ht : s.threshold.nanos = period.nanos*ticks) :
    s.expired = true ↔ ticks < n := by
  have hm := margin_pos
  unfold Bounded at hb
  have hiff : ticks*period.nanos < n*period.nanos ↔ ticks < n :=
    Nat.mul_lt_mul_right hp
  rw [expired,decide_eq_true_eq,h,← hiff]
  rw [Nat.mul_comm] at ht
  omega

theorem elapsed_expire (hb : Bounded s.threshold) :
    s.expire.elapsed.nanos = s.threshold.nanos + margin.nanos := by
  have hforce : s.force = .ok ⟨⟨s.threshold.nanos + margin.nanos,hb⟩,s.threshold⟩ :=
    force_eq_ok_iff.mpr ⟨rfl,rfl⟩
  rw [expire_of_force hforce]

theorem expired_of_elapsed (h : s.elapsed.nanos = s.threshold.nanos + margin.nanos) :
    s.expired = true := by
  have hm := margin_pos
  rw [expired,decide_eq_true_eq,h]
  omega

theorem expired_tick (h : s.elapsed.nanos = s.threshold.nanos + margin.nanos)
    (hb : Bounded s.threshold) (period : Duration) : (s.tick period).expired = true := by
  have hm := margin_pos
  unfold Bounded at hb
  rw [expired,decide_eq_true_eq,threshold_tick]
  simp only [Silence.tick,Duration.nanos_addClamped,h]
  omega

end Silence

namespace Connection

open Sender (Settings)

/-- A close is asked for: by the remote, by a call, or by the owner of all connections. -/
def Happening.ends : Happening → Bool
  | .heard frame => frame.kind = .acls
  | .sent frame => frame.kind = .rcls
  | .shut => true
  | _ => false

def Happening.idle : Happening → Bool
  | .heard frame => frame.kind ≠ .adat && frame.kind ≠ .acls
  | .sent frame => frame.kind ≠ .rcls
  | .pushed _ _ => true
  | _ => false

def ending (log : List Happening) : Bool := log.any (·.ends)

/-- What has happened since the remote last accepted, or at all if it did not. -/
def since (log : List Happening) : List Happening :=
  (log.reverse.takeWhile (· ≠ .opened)).reverse

/-- The periods of silence after one more thing has happened, once the remote has accepted. -/
def hush (silent : Option Nat) : Happening → Option Nat
  | .opened => some 0
  | .heard frame => if frame.kind = .adat then silent.map fun _ => 0 else silent
  | .ticked => silent.map (· + 1)
  | _ => silent

/-- The periods of silence since the remote accepted or was last heard to acknowledge something,
whichever is later, once it has accepted. -/
def silent (log : List Happening) : Option Nat := log.foldl hush none

section

variable {log more : List Happening} {a : Happening}

@[simp] theorem ending_append (log more : List Happening) :
    ending (log ++ more) = (ending log || ending more) :=
  List.any_append

theorem silent_append (log more : List Happening) :
    silent (log ++ more) = more.foldl hush (silent log) :=
  List.foldl_append

theorem since_opened (log : List Happening) (frame : Frame) :
    since (log ++ [.heard frame,.opened]) = [] := by
  simp [since]

theorem since_append (log : List Happening) (h : .opened ∉ more) :
    since (log ++ more) = since log ++ more := by
  have hall : ∀ a ∈ more.reverse, decide (a ≠ .opened) = true := by
    intro a ha
    rw [decide_eq_true_eq]
    rintro rfl
    exact h (List.mem_reverse.mp ha)
  rw [since,since,List.reverse_append,List.takeWhile_append_of_pos hall,List.reverse_append,
    List.reverse_reverse]

theorem since_of_not_mem (h : .opened ∉ log) : since log = log := by
  have hs := since_append [] h
  rwa [List.nil_append] at hs

theorem ending_of_since (h : ending (since log) = true) : ending log = true := by
  obtain ⟨a,ha,he⟩ := List.any_eq_true.mp h
  refine List.any_eq_true.mpr ⟨a,?_,he⟩
  rw [since,List.mem_reverse] at ha
  exact List.mem_reverse.mp ((List.takeWhile_sublist _).subset ha)

theorem silent_eq_none_iff (log : List Happening) : silent log = none ↔ .opened ∉ log := by
  have hfold : ∀ (more : List Happening) (n : Option Nat),
      more.foldl hush n = none ↔ n = none ∧ .opened ∉ more := by
    intro more
    induction more with
    | nil => simp
    | cons a more ih =>
      intro n
      rw [List.foldl_cons,ih,List.mem_cons,not_or]
      cases a with
      | heard frame =>
        simp only [hush]
        split
        · simp
        · simp
      | _ => simp [hush]
  rw [silent,hfold]
  simp

theorem idle_pushed (k : CallId) (pieces : List (Int32 × Bytes)) :
    ∀ a ∈ pieces.map (Happening.pushed k), a.idle = true := by
  intro a ha
  obtain ⟨piece,_,rfl⟩ := List.mem_map.mp ha
  rfl

theorem idle_sent {frames : List Frame} (h : ∀ frame ∈ frames, frame.kind ≠ .rcls) :
    ∀ a ∈ frames.map Happening.sent, a.idle = true := by
  intro a ha
  obtain ⟨frame,hf,rfl⟩ := List.mem_map.mp ha
  exact decide_eq_true (h frame hf)

theorem idle_ending (h : ∀ a ∈ more, a.idle = true) : ending more = false := by
  refine List.any_eq_false.mpr fun a ha => ?_
  have hi := h a ha
  cases a with
  | _ => simp_all [Happening.idle,Happening.ends]

theorem idle_opened (h : ∀ a ∈ more, a.idle = true) : .opened ∉ more := fun hm => by
  cases h _ hm

theorem idle_ticked (h : ∀ a ∈ more, a.idle = true) : .ticked ∉ more := fun hm => by
  cases h _ hm

theorem idle_hush (h : ∀ a ∈ more, a.idle = true) (n : Option Nat) : more.foldl hush n = n := by
  induction more generalizing n with
  | nil => rfl
  | cons a more ih =>
    have ha := h a List.mem_cons_self
    rw [List.foldl_cons,ih fun b hb => h b (List.mem_cons_of_mem _ hb)]
    cases a with
    | heard frame =>
      simp only [Happening.idle,Bool.and_eq_true,decide_eq_true_eq] at ha
      rw [hush,if_neg ha.1]
    | sent frame => rfl
    | pushed k piece => rfl
    | opened => cases ha
    | ticked => cases ha
    | shut => cases ha

end

/-- The periods counted: those since the remote accepted once a close was asked for, and those
since it was last heard as long as none was. -/
def periods (log : List Happening) : Nat :=
  if ending log then (since log).count .ticked else (silent log).getD 0

/-- The counter of silence of a connection to which `log` has happened. Only the first two say
anything of a connection that is torn down. -/
structure Paced (settings : Settings) (x : Connection) (log : List Happening) : Prop where
  threshold : x.silence.threshold = settings.threshold
  closing : x.closing = ending log
  checking : x.closed = false → (x.checking = true ↔ .opened ∈ log)
  forced : x.closed = false → ending (since log) = true →
    x.silence.elapsed.nanos = settings.threshold.nanos + Silence.margin.nanos
  tolerated : x.closed = false → ending (since log) = false → x.silence.expired = false
  spent : x.closed = false → ending (since log) = false →
    x.silence.Spent settings.period (periods log)

section

variable {settings : Settings} {x y : Connection} {log hs : List Happening} {frame : Frame}

theorem paced_start (settings : Settings) (id : ConnId) (bound remote : Address) (now : Nat) :
    Paced settings (start id bound remote settings.threshold now) [.sent requestFrame] where
  threshold := rfl
  closing := rfl
  checking := by simp [start]
  forced := fun _ h => absurd h (by decide)
  tolerated := fun _ _ => by simp [start,Silence.start,Silence.expired]
  spent := fun _ _ => Silence.spent_start settings.threshold settings.period

theorem Paced.expired (h : Paced settings x log) (ho : x.closed = false) :
    x.silence.expired = ending (since log) := by
  cases he : ending (since log) with
  | true =>
    refine Silence.expired_of_elapsed ?_
    rw [h.threshold]
    exact h.forced ho he
  | false => exact h.tolerated ho he

theorem periods_idle (h : ∀ a ∈ hs, a.idle = true) : periods (log ++ hs) = periods log := by
  have hcount : hs.count .ticked = 0 := List.count_eq_zero.mpr (idle_ticked h)
  rw [periods,periods,ending_append,idle_ending h,Bool.or_false,since_append log (idle_opened h),
    List.count_append,hcount,Nat.add_zero,silent_append,idle_hush h]

theorem Paced.idle (h : Paced settings x log) (hi : ∀ a ∈ hs, a.idle = true)
    (hs' : y.silence = x.silence) (hcl : y.closing = x.closing) (hco : y.closed = x.closed)
    (hch : y.checking = x.checking) : Paced settings y (log ++ hs) where
  threshold := by rw [hs',h.threshold]
  closing := by rw [hcl,h.closing,ending_append,idle_ending hi,Bool.or_false]
  checking := by
    rw [hco,hch,List.mem_append,or_iff_left (idle_opened hi)]
    exact h.checking
  forced := by
    rw [hco,hs',since_append log (idle_opened hi),ending_append,idle_ending hi,Bool.or_false]
    exact h.forced
  tolerated := by
    rw [hco,hs',since_append log (idle_opened hi),ending_append,idle_ending hi,Bool.or_false]
    exact h.tolerated
  spent := by
    rw [hco,hs',since_append log (idle_opened hi),ending_append,idle_ending hi,Bool.or_false,
      periods_idle hi]
    exact h.spent

/-- The remote accepts: the counter starts again, whether or not a close was asked for. -/
theorem Paced.accept (h : Paced settings x log) (hk : frame.kind = .acon) (outbox : Outbox) :
    Paced settings { x with
      outbox := outbox
      silence := x.silence.reset
      state := .connected
      pumping := true
      checking := true } (log ++ [.heard frame,.opened]) where
  threshold := h.threshold
  closing := by simp [h.closing,ending,Happening.ends,hk]
  checking := fun _ => by simp
  forced := fun _ he => by
    rw [since_opened] at he
    cases he
  tolerated := fun _ _ => Silence.expired_reset x.silence
  spent := fun _ _ => by
    have hn : periods (log ++ [.heard frame,.opened]) = 0 := by
      rw [periods,since_opened,silent_append]
      simp [hush]
    rw [hn]
    exact Silence.spent_reset x.silence settings.period

theorem Paced.heed (h : Paced settings x log) (hk : frame.kind = .adat) (outbox : Outbox) :
    Paced settings { x with
      outbox := outbox
      silence := if x.closing then x.silence else x.silence.reset } (log ++ [.heard frame]) := by
  have hmem : .opened ∉ [Happening.heard frame] := by simp
  have hno : ending [.heard frame] = false := by simp [ending,Happening.ends,hk]
  have hsince := since_append log hmem
  cases hc : x.closing with
  | true =>
    have hend : ending log = true := by rw [← h.closing,hc]
    have hn : periods (log ++ [.heard frame]) = periods log := by
      simp [periods,hsince,hend]
    exact {
      threshold := h.threshold
      closing := by rw [ending_append,hend]; rfl
      checking := fun ho => by
        rw [List.mem_append,or_iff_left hmem]
        exact h.checking ho
      forced := by
        rw [hsince,ending_append,hno,Bool.or_false]
        exact h.forced
      tolerated := by
        rw [hsince,ending_append,hno,Bool.or_false]
        exact h.tolerated
      spent := by
        rw [hsince,ending_append,hno,Bool.or_false,hn]
        exact h.spent }
  | false =>
    have hend : ending (log ++ [.heard frame]) = false := by
      rw [ending_append,hno,← h.closing,hc]
      rfl
    have hn : periods (log ++ [.heard frame]) = 0 := by
      rw [periods,hend,silent_append]
      cases silent log <;> simp [hush,hk]
    exact {
      threshold := h.threshold
      closing := by rw [hend]
      checking := fun ho => by
        rw [List.mem_append,or_iff_left hmem]
        exact h.checking ho
      forced := fun _ he => by
        rw [ending_of_since he] at hend
        cases hend
      tolerated := fun _ _ => Silence.expired_reset x.silence
      spent := fun _ _ => by
        rw [hn]
        exact Silence.spent_reset x.silence settings.period }

theorem Paced.requestClose (h : Paced settings x log) (hb : Silence.Bounded settings.threshold)
    {a : Happening} (ha : a.ends = true) : Paced settings x.requestClose (log ++ [a]) := by
  have hne : .opened ∉ [a] := by
    rw [List.mem_singleton]
    rintro rfl
    cases ha
  have hend : ending [a] = true := by simp [ending,ha]
  have hsince : ending (since (log ++ [a])) = true := by
    rw [since_append log hne,ending_append,hend,Bool.or_true]
  have helapsed := Silence.elapsed_expire (s := x.silence) (by rw [h.threshold]; exact hb)
  rw [h.threshold] at helapsed
  exact {
    threshold := (Silence.threshold_expire _).trans h.threshold
    closing := by rw [ending_append,hend,Bool.or_true]; rfl
    checking := fun ho => by
      rw [List.mem_append,or_iff_left hne]
      exact h.checking ho
    forced := fun _ _ => helapsed
    tolerated := fun _ hn => by
      rw [hsince] at hn
      cases hn
    spent := fun _ hn => by
      rw [hsince] at hn
      cases hn }

theorem ticked_since (log : List Happening) :
    since (log ++ [.ticked]) = since log ++ [.ticked] :=
  since_append log (by simp)

theorem ending_ticked (log : List Happening) : ending (log ++ [.ticked]) = ending log := by
  rw [ending_append]
  exact Bool.or_false _

theorem Paced.pass (h : Paced settings x log) (hc : x.checking = false) :
    Paced settings x (log ++ [.ticked]) where
  threshold := h.threshold
  closing := by rw [ending_ticked,h.closing]
  checking := fun ho => by
    rw [List.mem_append,or_iff_left (by simp)]
    exact h.checking ho
  forced := fun ho => by
    rw [ticked_since,ending_ticked]
    exact h.forced ho
  tolerated := fun ho => by
    rw [ticked_since,ending_ticked]
    exact h.tolerated ho
  spent := fun ho => by
    rw [ticked_since,ending_ticked]
    intro he
    have hnot : .opened ∉ log := fun hm => by
      rw [(h.checking ho).mpr hm] at hc
      cases hc
    have hs := h.spent ho he
    rw [since_of_not_mem hnot] at he
    rw [periods,he,(silent_eq_none_iff log).mpr hnot] at hs
    rw [periods,ending_ticked,he,silent_append,(silent_eq_none_iff log).mpr hnot]
    exact hs

theorem Paced.wait (h : Paced settings x log) (hb : Silence.Bounded settings.threshold)
    (hc : x.checking = true) (he : (x.silence.tick settings.period).expired = false) :
    Paced settings { x with silence := x.silence.tick settings.period } (log ++ [.ticked]) where
  threshold := h.threshold
  closing := by rw [ending_ticked]; exact h.closing
  checking := fun ho => by
    rw [List.mem_append,or_iff_left (by simp)]
    exact h.checking ho
  forced := fun ho => by
    rw [ticked_since,ending_ticked]
    intro hf
    have helapsed := h.forced ho hf
    rw [← h.threshold] at helapsed
    rw [Silence.expired_tick helapsed (by rw [h.threshold]; exact hb)] at he
    cases he
  tolerated := fun _ _ => he
  spent := fun ho => by
    rw [ticked_since,ending_ticked]
    intro hn
    obtain ⟨n,hn'⟩ := Option.ne_none_iff_exists'.mp fun hnone =>
      (silent_eq_none_iff log).mp hnone ((h.checking ho).mp hc)
    have hnext : periods (log ++ [.ticked]) = periods log + 1 := by
      rw [periods,periods,ending_ticked,ticked_since,silent_append,hn',List.count_append]
      split
      · rfl
      · rfl
    rw [hnext]
    exact (h.spent ho hn).tick

theorem Paced.over (h : Paced settings x log) (ht : y.silence.threshold = x.silence.threshold)
    (hc : y.closing = ending (log ++ hs)) (ho : y.closed = true) :
    Paced settings y (log ++ hs) where
  threshold := by rw [ht,h.threshold]
  closing := hc
  checking := fun hn => by rw [ho] at hn; cases hn
  forced := fun hn => by rw [ho] at hn; cases hn
  tolerated := fun hn => by rw [ho] at hn; cases hn
  spent := fun hn => by rw [ho] at hn; cases hn

theorem Paced.stroke (h : Paced settings x log) (hb : Silence.Bounded settings.threshold)
    {asking lasting : Prop} (ht : Stroke settings asking lasting x hs y) :
    Paced settings y (log ++ hs) := by
  cases ht with
  | drain => exact h.idle (by simp) rfl rfl rfl rfl
  | stop _ => exact h.idle (by simp) rfl rfl rfl rfl
  | ask _ =>
    have hi : ∀ a ∈ [requestFrame].map Happening.sent, a.idle = true := idle_sent (by decide)
    exact h.idle hi rfl rfl rfl rfl
  | hold k _ _ _ _ => exact h.idle (idle_pushed k _) rfl rfl rfl rfl
  | leave _ _ _ => exact h.requestClose hb rfl
  | accept _ hk _ => exact h.accept hk _
  | ignore _ hk _ => exact h.idle (by simpa [Happening.idle] using hk) rfl rfl rfl rfl
  | pump now _ _ _ =>
    refine h.idle (idle_sent fun frame hf => ?_) rfl rfl rfl rfl
    rw [kind_of_pumped hf]
    decide
  | heed _ hk => exact h.heed hk _
  | dismiss _ hk => exact h.requestClose hb (by simp [Happening.ends,hk])
  | pass hc => exact h.pass hc
  | wait hc he => exact h.wait hb hc he
  | lapse _ _ => exact h.over rfl (by rw [ending_ticked]; exact h.closing) rfl
  | shut =>
    exact h.over (Silence.threshold_expire _) (by simp [ending,Happening.ends]; rfl) rfl

end

/-- A close was asked for before the remote last accepted, and not since. -/
def Revived (log : List Happening) : Prop := ending log = true ∧ ending (since log) = false

instance (log : List Happening) : Decidable (Revived log) :=
  inferInstanceAs (Decidable (_ ∧ _))

end Connection

namespace Sender

open Connection

variable {s : Sender} {settings : Settings} {id : ConnId} {c : ConnRef} {x : Connection}

theorem paced_play (settings : Settings) (hb : Silence.Bounded settings.threshold)
    (ms : List Move) (c : ConnRef) : ∀ x, ((start settings).play ms).1.conns[c]? = some x →
      Paced settings x (chronicle c (start settings) ms) :=
  chronicle_induct settings ms c (paced_start settings) fun _ _ _ _ _ h hs => h.stroke hb hs

/-- The connection that had the number is torn down, and nothing has the number any more. -/
structure Gone (s : Sender) (id : ConnId) (c : ConnRef) : Prop where
  nameless : s.table.get? id = none
  closed : ∃ x, s.conns[c]? = some x ∧ x.closed = true

theorem onTick_gone (hs : s.Sound) (hx : s.lookup id = some (c,x)) (hc : x.checking = true)
    (he : (x.silence.tick s.settings.period).expired = true) : (s.onTick c).Gone id c := by
  obtain ⟨ht,hat⟩ := lookup_eq_some_iff.mp hx
  obtain ⟨y,hy,rfl,_⟩ := hs.table id c ht
  rw [hat] at hy
  obtain rfl := Option.some.inj hy
  simp only [onTick,hat,if_pos hc,if_pos he]
  refine ⟨?_,_,conns_modify_self (conns_modify_self hat _) _,rfl⟩
  show (s.table.remove x.id).2.get? x.id = none
  rw [get?_remove,if_pos rfl]

/-- A close that is asked for stays asked for, and the next period of silence is the end of the
connection, unless the remote accepted after the close was asked for: the counter then starts again
and runs on, whatever else is heard. -/
theorem closing_along_play (settings : Settings) (hb : Silence.Bounded settings.threshold)
    (ms : List Move) {log : List Happening} (hlog : chronicle c (start settings) ms = log)
    (hx : ((start settings).play ms).1.lookup id = some (c,x)) (he : ending log = true) :
    x.closing = true ∧ (x.silence.expired = true ↔ ¬ Revived log) ∧
      (.opened ∈ log → ¬ Revived log →
        (((start settings).play ms).1.make (.event (.tick c))).1.Gone id c) ∧
      (Revived log → x.silence.Spent settings.period ((since log).count .ticked)) := by
  have hs : ((start settings).play ms).1.Sound := (known_play settings ms c).sound
  obtain ⟨ht,hat⟩ := lookup_eq_some_iff.mp hx
  obtain ⟨y,hy,_,ho⟩ := hs.table id c ht
  rw [hat] at hy
  obtain rfl := Option.some.inj hy
  have hp := paced_play settings hb ms c x hat
  rw [hlog] at hp
  have hrevived : ¬ Revived log ↔ ending (since log) = true := by simp [Revived,he]
  refine ⟨by rw [hp.closing,he],by rw [hp.expired ho,hrevived],fun hopen hr => ?_,fun hr => ?_⟩
  · refine onTick_gone hs hx ((hp.checking ho).mpr hopen) (Silence.expired_tick ?_ ?_ _)
    · rw [hp.threshold]
      exact hp.forced ho (hrevived.mp hr)
    · rw [hp.threshold]
      exact hb
  · have hspent := hp.spent ho hr.2
    rwa [periods,if_pos he] at hspent

def brisk : Settings := ⟨.ofMillis 1500,.ofMillis 500,.ofMillis 100⟩

def refuseLast (bound remote : Address) : List Move :=
  [.event (.connect bound remote none 0),
    .event (.datagram 0 remote (Frame.encode ⟨.acon,0,5000,[]⟩) 0),
    .event (.datagram 0 remote (Frame.encode ⟨.acls,0,0,[]⟩) 0)]

/-- A close that the remote asks for is the end of the connection with the next period. -/
theorem closing_along_play_refuseLast : ∃ x,
    ((start brisk).play (refuseLast ⟨.localhost,0,4001⟩ ⟨.localhost,0,4000⟩)).1.lookup 1 =
      some (0,x) ∧ x.silence.expired = true ∧
    (((start brisk).play (refuseLast ⟨.localhost,0,4001⟩ ⟨.localhost,0,4000⟩)).1.make
      (.event (.tick 0))).1.Gone 1 0 := by
  have hfirst : (((start brisk).play (refuseLast ⟨.localhost,0,4001⟩
      ⟨.localhost,0,4000⟩)).1.lookup 1).map (·.1) = some 0 := by decide +kernel
  obtain ⟨⟨d,x⟩,hx,rfl⟩ := Option.map_eq_some_iff.mp hfirst
  have hr : ¬ Revived (chronicle 0 (start brisk)
      (refuseLast ⟨.localhost,0,4001⟩ ⟨.localhost,0,4000⟩)) := by decide +kernel
  obtain ⟨_,hexpired,hgone,_⟩ := closing_along_play brisk (by decide) _ rfl hx (by decide +kernel)
  exact ⟨x,hx,hexpired.mpr hr,hgone (by decide +kernel) hr⟩

def refuseFirst (bound remote : Address) : List Move :=
  [.event (.connect bound remote none 0),
    .event (.datagram 0 remote (Frame.encode ⟨.acls,0,0,[]⟩) 0),
    .event (.datagram 0 remote (Frame.encode ⟨.acon,0,5000,[]⟩) 0)]

/-- The counter of a connection for which a close was asked is not always past the threshold. -/
theorem closing_refuseFirst :
    ¬ ∀ (settings : Settings) (ms : List Move) (id : ConnId) (c : ConnRef) (x : Connection),
      Silence.Bounded settings.threshold → 0 < settings.period.nanos →
      ((start settings).play ms).1.lookup id = some (c,x) →
      ending (chronicle c (start settings) ms) = true → x.silence.expired = true := by
  intro h
  have hlives : (((start brisk).play (refuseFirst ⟨.localhost,0,4001⟩
      ⟨.localhost,0,4000⟩)).1.lookup 1).map (fun e => (e.1,e.2.silence.expired)) =
      some (0,false) := by decide +kernel
  obtain ⟨⟨d,x⟩,hx,hd⟩ := Option.map_eq_some_iff.mp hlives
  obtain ⟨rfl,hlives⟩ := Prod.mk.inj hd
  have hexpired := h brisk (refuseFirst ⟨.localhost,0,4001⟩ ⟨.localhost,0,4000⟩) 1 0 x (by decide)
    (by decide) hx (by decide +kernel)
  rw [hlives] at hexpired
  cases hexpired

end Sender
end ReliableTransport
