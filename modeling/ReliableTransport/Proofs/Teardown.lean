import ReliableTransport.Proofs.Handshake
import ReliableTransport.Proofs.Lapses

/-! The tick at which a connection is torn down. For a sender it is the first tick with which more
periods of silence than are tolerated have gone by since the remote accepted or was last heard to
acknowledge something, whichever is later, as long as no close was asked for. On neither side is it
an earlier one or a later one, and nothing is torn down twice. -/
namespace ReliableTransport

namespace Connection

open Sender (Settings)

def Overdue (ticks : Nat) (log : List Happening) : Prop :=
  match silent log with
  | none => False
  | some n => ticks < n

/-- Whether a connection for which no close was asked is torn down can be read off its chronicle. -/
structure Watched (ticks : Nat) (x : Connection) (log : List Happening) : Prop where
  torn : ending log = false → x.closed = true → x.checking = false ∧ x.listening = false
  struck : ending log = false → (x.closed = true ↔ Struck .ticked (Overdue ticks) log)

section

variable {settings : Settings} {ticks : Nat} {x y : Connection} {log hs : List Happening}

theorem watched_start (ticks : Nat) (id : ConnId) (bound remote : Address) (threshold : Duration)
    (now : Nat) : Watched ticks (start id bound remote threshold now) [.sent requestFrame] where
  torn := fun _ hc => by cases hc
  struck := fun _ => iff_of_false (by simp [start]) fun hs => by
    have hnone : Happening.ticked ∉ [.sent requestFrame] := by simp
    obtain ⟨before,after,he,_⟩ := hs
    exact hnone (by rw [he]; simp)

theorem ending_left (h : ending (log ++ hs) = false) : ending log = false := by
  rw [ending_append,Bool.or_eq_false_iff] at h
  exact h.1

theorem Watched.ended (he : ending hs = true) : Watched ticks y (log ++ hs) := by
  have hend : ¬ ending (log ++ hs) = false := by simp [he]
  exact ⟨fun hn => absurd hn hend,fun hn => absurd hn hend⟩

/-- What is no tick tears nothing down as long as no close is asked for. -/
theorem Watched.keep (h : Watched ticks x log) (hn : .ticked ∉ hs) (hc : y.closed = x.closed)
    (ho : x.checking = false → x.listening = false → y.checking = false ∧ y.listening = false) :
    Watched ticks y (log ++ hs) where
  torn := fun he hy => by
    obtain ⟨hcheck,hlisten⟩ := h.torn (ending_left he) (hc ▸ hy)
    exact ho hcheck hlisten
  struck := fun he => by
    rw [hc,struck_append_iff hn]
    exact h.struck (ending_left he)

theorem silent_ticked {n : Nat} (h : silent log = some n) :
    silent (log ++ [.ticked]) = some (n + 1) := by
  rw [silent_append,h]
  rfl

theorem Watched.overdue_iff (h : Watched ticks x log) (hp : Paced settings x log)
    (hm : Silence.Measure settings.threshold settings.period ticks) (hc : x.checking = true)
    (he : ending log = false) : x.closed = false ∧
      (Overdue ticks (log ++ [.ticked]) ↔ (x.silence.tick settings.period).expired = true) := by
  have ho : x.closed = false := Bool.eq_false_iff.mpr fun hcl => by
    rw [(h.torn he hcl).1] at hc
    cases hc
  obtain ⟨n,hn⟩ := Option.ne_none_iff_exists'.mp fun hnone =>
    (silent_eq_none_iff log).mp hnone ((hp.checking ho).mp hc)
  have hsince : ending (since log) = false := Bool.eq_false_iff.mpr fun hs => by
    rw [ending_of_since hs] at he
    cases he
  have hspent := hp.spent ho hsince
  rw [periods,he,hn] at hspent
  have hscaled :
      (x.silence.tick settings.period).threshold.nanos = settings.period.nanos*ticks := by
    rw [Silence.threshold_tick,hp.threshold]
    exact hm.scaled
  have hbounded : Silence.Bounded (x.silence.tick settings.period).threshold := by
    rw [Silence.threshold_tick,hp.threshold]
    exact hm.bounded
  refine ⟨ho,?_⟩
  rw [Overdue,silent_ticked hn,hspent.tick.expired_iff hbounded hm.positive hscaled]
  rfl

theorem Watched.spare (h : Watched ticks x log) (hc : y.closed = x.closed)
    (ho : x.checking = false → x.listening = false → y.checking = false ∧ y.listening = false)
    (hn : ending log = false → x.closed = false → ¬ Overdue ticks (log ++ [.ticked])) :
    Watched ticks y (log ++ [.ticked]) where
  torn := fun he hy => by
    obtain ⟨hcheck,hlisten⟩ := h.torn (ending_left he) (hc ▸ hy)
    exact ho hcheck hlisten
  struck := fun he => by
    have hst := h.struck (ending_left he)
    rw [hc,struck_concat_iff,← hst]
    cases hx : x.closed with
    | true => simp
    | false => simp [hn (ending_left he) hx]

theorem Watched.stroke {asking lasting : Prop} (h : Watched ticks x log)
    (hp : Paced settings x log) (hm : Silence.Measure settings.threshold settings.period ticks)
    (ht : Stroke settings asking lasting x hs y) : Watched ticks y (log ++ hs) := by
  cases ht with
  | drain => exact h.keep (by simp) rfl fun h₁ h₂ => ⟨h₁,h₂⟩
  | stop _ => exact h.keep (by simp) rfl fun h₁ h₂ => ⟨h₁,h₂⟩
  | ask _ => exact h.keep (by simp) rfl fun h₁ h₂ => ⟨h₁,h₂⟩
  | hold k _ _ _ _ => exact h.keep (by simp) rfl fun h₁ h₂ => ⟨h₁,h₂⟩
  | leave _ _ _ => exact .ended rfl
  | accept hl _ _ =>
    refine h.keep (by simp) rfl fun _ hn => ?_
    rw [hl] at hn
    cases hn
  | ignore _ _ _ => exact h.keep (by simp) rfl fun h₁ h₂ => ⟨h₁,h₂⟩
  | pump now _ _ _ => exact h.keep (by simp) rfl fun h₁ h₂ => ⟨h₁,h₂⟩
  | heed _ _ => exact h.keep (by simp) rfl fun h₁ h₂ => ⟨h₁,h₂⟩
  | dismiss _ hk => exact .ended (by simp [ending,Happening.ends,hk])
  | pass hc =>
    refine h.spare rfl (fun h₁ h₂ => ⟨h₁,h₂⟩) fun _ ho => ?_
    have hnone : silent log = none := (silent_eq_none_iff log).mpr fun hm => by
      rw [(hp.checking ho).mpr hm] at hc
      cases hc
    have hnext : silent (log ++ [.ticked]) = none := by
      rw [silent_append,hnone]
      rfl
    rw [Overdue,hnext]
    exact not_false
  | wait hc he =>
    refine h.spare rfl (fun h₁ h₂ => ⟨h₁,h₂⟩) fun hend _ => ?_
    rw [(h.overdue_iff hp hm hc hend).2,he]
    exact Bool.false_ne_true
  | lapse hc he =>
    refine ⟨fun _ _ => ⟨rfl,rfl⟩,fun hend => iff_of_true rfl ?_⟩
    exact struck_concat_iff.mpr (.inr ((h.overdue_iff hp hm hc (ending_left hend)).2.mpr he))
  | shut => exact .ended rfl

end

end Connection

namespace Sender

open Connection

variable {settings : Settings} {ticks : Nat} {s : Sender} {c : ConnRef} {log : List Happening}
  {m : Move}

def fallen (s : Sender) (c : ConnRef) : Bool := (s.conns[c]?).any (·.closed)

def Falls (s : Sender) (c : ConnRef) (m : Move) : Prop :=
  s.fallen c = false ∧ (s.make m).1.fallen c = true

theorem happens_tick {x : Connection} (hx : s.conns[c]? = some x) :
    s.happens c (.event (.tick c)) = [.ticked] := by
  simp [happens,Event.happens,Event.brings,hx,Event.subject,stampedOn,react]

theorem of_happens_ticked (h : .ticked ∈ s.happens c m) :
    m = .event (.tick c) ∧ s.happens c m = [.ticked] := by
  have hpushed : ∀ {k subject t}, .ticked ∉ stampedOn k subject c s t := fun hp => by
    obtain ⟨piece,he⟩ := of_mem_stampedOn hp
    cases he
  have htold : ∀ {os}, .ticked ∉ told c os := fun ht => by
    obtain ⟨frame,he,_⟩ := of_mem_told ht
    cases he
  cases m with
  | retry k =>
    rcases List.mem_append.mp h with h | h
    · exact absurd h hpushed
    · exact absurd h htold
  | event e =>
    rcases List.mem_append.mp h with h | h
    · rcases of_mem_brings ((List.mem_append.mp h).resolve_right hpushed) with
        ⟨frame,he⟩ | he | ⟨_,rfl⟩ | he
      · cases he
      · cases he
      · cases hx : s.conns[c]? with
        | none => simp [Event.brings,hx,stampedOn_of_none _ _ hx] at h
        | some x => exact ⟨rfl,happens_tick hx⟩
      · cases he
    · exact absurd h htold

/-- When a sender tears down connection `c`, given the moves `ms` by now. -/
structure Lapses (ticks : Nat) (settings : Settings) (ms : List Move) (c : ConnRef) (m : Move) :
    Prop where
  falls : Falls ((start settings).play ms).1 c m ↔
    m = .event (.tick c) ∧ Strikes .ticked (Overdue ticks) (chronicle c (start settings) ms)
  gone : Falls ((start settings).play ms).1 c m → ∀ id,
    (((start settings).play ms).1.make m).1.table.get? id ≠ some c
  once : ((start settings).play ms).1.fallen c = true →
    ((start settings).play ms).1.onTick c = ((start settings).play ms).1
  opened : Few (chronicle c (start settings) ms) → .opened ∈ chronicle c (start settings) ms →
    OpenedOnce (chronicle c (start settings) ms)

theorem watched_play (hm : Silence.Measure settings.threshold settings.period ticks)
    (ms : List Move) (c : ConnRef) : ∀ x, ((start settings).play ms).1.conns[c]? = some x →
      Watched ticks x (chronicle c (start settings) ms) := by
  have hboth := chronicle_induct (P := fun x log => Paced settings x log ∧ Watched ticks x log)
    settings ms c
    (fun id bound remote now => ⟨paced_start settings id bound remote now,
      watched_start ticks id bound remote settings.threshold now⟩)
    fun _ _ _ _ _ h hs => ⟨h.1.stroke hm.bounded hs,h.2.stroke h.1 hm hs⟩
  exact fun x hx => (hboth x hx).2

theorem fallen_play_iff (hm : Silence.Measure settings.threshold settings.period ticks)
    (ms : List Move) (he : ending (chronicle c (start settings) ms) = false) :
    ((start settings).play ms).1.fallen c = true ↔
      Struck .ticked (Overdue ticks) (chronicle c (start settings) ms) := by
  unfold fallen
  cases hx : ((start settings).play ms).1.conns[c]? with
  | none => simp [(known_play settings ms c).fresh hx,Struck]
  | some x => exact (watched_play hm ms c x hx).struck he

theorem falls_iff (hm : Silence.Measure settings.threshold settings.period ticks)
    (ms : List Move) (c : ConnRef) (m : Move)
    (he : ending (chronicle c (start settings) (ms ++ [m])) = false) :
    Falls ((start settings).play ms).1 c m ↔
      m = .event (.tick c) ∧ Strikes .ticked (Overdue ticks) (chronicle c (start settings) ms) := by
  have hsplit := chronicle_concat c (start settings) ms m
  have hlater := fallen_play_iff hm (ms ++ [m]) he
  rw [hsplit] at he hlater
  rw [play_concat] at hlater
  unfold Falls
  rw [hlater,← Bool.not_eq_true,fallen_play_iff hm ms (ending_left he)]
  refine strikes_iff of_happens_ticked ?_
  rintro rfl hdue
  cases hx : ((start settings).play ms).1.conns[c]? with
  | none =>
    rw [(known_play settings ms c).fresh hx] at hdue
    cases hdue
  | some x => exact happens_tick hx

theorem onTick_fallen (hm : Silence.Measure settings.threshold settings.period ticks)
    (ms : List Move) (he : ending (chronicle c (start settings) ms) = false)
    (hf : ((start settings).play ms).1.fallen c = true) :
    ((start settings).play ms).1.onTick c = ((start settings).play ms).1 := by
  cases hx : ((start settings).play ms).1.conns[c]? with
  | none =>
    rw [fallen,hx] at hf
    cases hf
  | some x =>
    rw [fallen,hx,Option.any_some] at hf
    have hcheck := ((watched_play hm ms c x hx).torn he hf).1
    simp only [onTick,hx,hcheck,Bool.false_eq_true,if_false]

theorem lapses_play (hm : Silence.Measure settings.threshold settings.period ticks)
    (ms : List Move) (c : ConnRef) (m : Move)
    (he : ending (chronicle c (start settings) (ms ++ [m])) = false) :
    Lapses ticks settings ms c m where
  falls := falls_iff hm ms c m he
  gone := by
    rintro ⟨_,hf⟩ id hid
    obtain ⟨y,hy,_,ho⟩ := ((known_play settings ms c).sound.make m).table id c hid
    rw [fallen,hy,Option.any_some,ho] at hf
    cases hf
  once := by
    rw [chronicle_concat] at he
    exact onTick_fallen hm ms (ending_left he)
  opened := by
    intro hfew ho
    cases hx : ((start settings).play ms).1.conns[c]? with
    | none =>
      rw [(known_play settings ms c).fresh hx] at ho
      cases ho
    | some x =>
      have hh := handshaken_play settings ms c hfew x hx
      exact hh.once (hh.opened_iff.mp ho)

end Sender

theorem Config.measures (config : Config) {settings : Sender.Settings}
    (hs : config.sender = .ok settings) (hb : Silence.Bounded settings.threshold)
    (hp : 0 < config.checkerPeriod.nanos) :
    Silence.Measure settings.threshold settings.period config.timeoutTicks.toNat ∧
      config.receiver.threshold = settings.threshold ∧
      config.receiver.period = settings.period := by
  cases ht : config.silenceThreshold with
  | error e =>
    simp only [Config.sender,ht] at hs
    cases hs
  | ok threshold =>
    simp only [Config.sender,ht] at hs
    obtain rfl := Except.ok.inj hs
    refine ⟨⟨hb,hp,Duration.scale_eq_ok_iff.mp ht⟩,?_,rfl⟩
    simp [Config.receiver,ht,Except.toOption]

/-- On either side a connection is torn down with the first tick that is due, and only then. -/
theorem lapses_along_play (config : Config) {settings : Sender.Settings}
    (hs : config.sender = .ok settings) (hb : Silence.Bounded settings.threshold)
    (hp : 0 < config.checkerPeriod.nanos) :
    (∀ ms p m, (((Receiver.start config.receiver).play ms).1.make m).1.closing = false →
      Receiver.Lapses config.timeoutTicks.toNat config.receiver ms p m) ∧
    ∀ ms c m, Connection.ending (Sender.chronicle c (.start settings) (ms ++ [m])) = false →
      Sender.Lapses config.timeoutTicks.toNat settings ms c m := by
  obtain ⟨hm,ht,hperiod⟩ := config.measures hs hb hp
  refine ⟨fun ms p m hopen => Receiver.lapses_play ?_ ms p hopen,
    fun ms c m he => Sender.lapses_play hm ms c m he⟩
  rw [ht,hperiod]
  exact hm

def Config.hasty : Config := { Config.standard with timeoutTicks := 1 }

def Receiver.acceptSilent (a : Address) : List Receiver.Move :=
  [.event (.datagram a (Frame.encode ⟨.rcon,0,0,[]⟩)),.event .acceptOne,.event (.tick 0)]

def Sender.openSilent (bound remote : Address) : List Sender.Move :=
  [.event (.connect bound remote none 0),
    .event (.datagram 0 remote (Frame.encode ⟨.acon,0,5000,[]⟩) 0),.event (.tick 0)]

/-- The second period of silence is one too many. -/
theorem lapses_along_play_silent :
    let a : Address := ⟨.localhost,0,4001⟩
    let b : Address := ⟨.localhost,0,4000⟩
    let settings : Sender.Settings := ⟨.ofMillis 2000,.ofMillis 2000,.ofMillis 1500⟩
    Strikes .ticked (Due 1) (Receiver.diary 0 (.start Config.hasty.receiver)
        (Receiver.acceptSilent a)) ∧
      Strikes .ticked (Connection.Overdue 1) (Sender.chronicle 0 (.start settings)
        (Sender.openSilent a b)) := by
  intro a b settings
  have hs : Config.hasty.sender = .ok settings := rfl
  obtain ⟨hpeer,hconn⟩ := lapses_along_play .hasty hs (by decide) (by decide)
  have hreceiver := hpeer (Receiver.acceptSilent a) 0 (.event (.tick 0)) (by decide +kernel)
  have hsender := hconn (Sender.openSilent a b) 0 (.event (.tick 0)) (by decide +kernel)
  exact ⟨(hreceiver.falls.mp ⟨by decide +kernel,by decide +kernel⟩).2,
    (hsender.falls.mp ⟨by decide +kernel,by decide +kernel⟩).2⟩

end ReliableTransport
