import ReliableTransport.Proofs.Leaving

/-! All that ever happens to one connection. The chronicle of a connection lists what the moves of
its sender have happen to it, in their order, from the request to connect with which it is made
(`chronicle`). Every connection of a sender comes to what it is by strokes that its chronicle lists,
so that whatever holds of a new connection and survives a stroke holds of every connection of every
play (`chronicle_induct`). -/
namespace ReliableTransport

namespace Connection

open Sender (Settings)

def frames (log : List Happening) : List Frame := log.filterMap fun
  | .sent frame => some frame
  | _ => none

@[simp] theorem frames_append (log more : List Happening) :
    frames (log ++ more) = frames log ++ frames more :=
  List.filterMap_append

theorem kind_of_pumped {pieces : List (Int32 × Bytes)} {frame : Frame}
    (h : frame ∈ pieces.map Sender.dataFrame ++ [lifeFrame]) : frame.kind = .data := by
  rcases List.mem_append.mp h with h | h
  · obtain ⟨piece,_,rfl⟩ := List.mem_map.mp h
    rfl
  · rw [List.mem_singleton.mp h]
    rfl

/-- Fewer payloads are pushed than their numbers tell apart. -/
def Few (log : List Happening) : Prop := (payloads (deeds log)).length < Signed.fragmentLimit

section

variable {settings : Settings} {asking lasting : Prop} {x y : Connection}
  {log more hs : List Happening}

theorem Few.of_append (h : Few (log ++ more)) : Few log := by
  unfold Few at h ⊢
  rw [deeds_append,payloads_append,List.length_append] at h
  omega

theorem Strokes.conduct (h : Strokes settings asking lasting x hs y) (hl : lasting)
    (hc : Conduct x (deeds log)) (hf : Few (log ++ hs)) :
    Conduct y (deeds (log ++ hs)) ∧
      (x.outbox.established = true → y.outbox.established = true) := by
  have ht : Turns (fun _ => True) asking settings.resend.nanos x (deeds hs) y :=
    h.turns hl fun _ _ => trivial
  unfold Few at hf
  rw [deeds_append] at hf ⊢
  exact ht.conduct hc hf

theorem Strokes.induct {P : Connection → List Happening → Prop}
    (h : Strokes settings asking lasting x hs y)
    (hc : lasting → Conduct x (deeds log) ∧ Few (log ++ hs)) (hp : P x log)
    (hstroke : ∀ x y log hs, (lasting → Conduct x (deeds log) ∧ Few (log ++ hs)) → P x log →
      Stroke settings True lasting x hs y → P y (log ++ hs)) : P y (log ++ hs) := by
  induction h generalizing log with
  | done =>
    rw [List.append_nil]
    exact hp
  | next h _ ih =>
    rw [← List.append_assoc] at hc ⊢
    have hfirst := fun hl => (hc hl).2.of_append
    refine ih (fun hl => ⟨?_,(hc hl).2⟩) (hstroke _ _ _ _ (fun hl => ⟨(hc hl).1,hfirst hl⟩) hp
      (h.mono fun _ => trivial))
    exact (h.once.conduct hl (hc hl).1 (hfirst hl)).1

end

end Connection

namespace Sender

open Connection

variable {settings : Settings} {s : Sender} {c : ConnRef} {log : List Happening}

def happens (s : Sender) (c : ConnRef) : Move → List Happening
  | .event e => e.happens s c
  | .retry k => s.retried c k

/-- What moves in a row have happen to a connection. -/
def chronicle (c : ConnRef) : Sender → List Move → List Happening
  | _, [] => []
  | s, m :: ms => s.happens c m ++ chronicle c (s.make m).1 ms

theorem chronicle_append (c : ConnRef) (s : Sender) (ms ns : List Move) :
    chronicle c s (ms ++ ns) = chronicle c s ms ++ chronicle c (s.play ms).1 ns := by
  induction ms generalizing s with
  | nil => rfl
  | cons m ms ih =>
    rw [List.cons_append,chronicle,ih,chronicle,play_cons,List.append_assoc]

theorem chronicle_concat (c : ConnRef) (s : Sender) (ms : List Move) (m : Move) :
    chronicle c s (ms ++ [m]) = chronicle c s ms ++ (s.play ms).1.happens c m := by
  rw [chronicle_append,chronicle,chronicle,List.append_nil]

theorem play_concat (s : Sender) (ms : List Move) (m : Move) :
    (s.play (ms ++ [m])).1 = ((s.play ms).1.make m).1 := by
  rw [play_append]
  rfl

theorem chronicle_split {ms : List Move} {before after : List Happening} {a : Happening}
    (h : chronicle c s ms = before ++ a :: after) :
    ∃ past m rest early late, ms = past ++ m :: rest ∧
      (s.play past).1.happens c m = early ++ a :: late ∧
      before = chronicle c s past ++ early ∧
      after = late ++ chronicle c ((s.play past).1.make m).1 rest := by
  induction ms generalizing s before with
  | nil => simp [chronicle] at h
  | cons m ms ih =>
    rw [chronicle] at h
    rcases List.append_eq_append_iff.mp h with ⟨mid,hb,hlater⟩ | ⟨mid,hnow,hlater⟩
    · obtain ⟨past,n,rest,early,late,rfl,hn,hbefore,hafter⟩ := ih hlater
      refine ⟨m :: past,n,rest,early,late,rfl,hn,?_,hafter⟩
      rw [hb,hbefore,chronicle,List.append_assoc]
    · cases mid with
      | nil =>
        rw [List.append_nil] at hnow
        rw [List.nil_append] at hlater
        have hsplit : chronicle c (s.make m).1 ms = [] ++ a :: after := hlater.symm
        obtain ⟨past,n,rest,early,late,rfl,hn,hbefore,hafter⟩ := ih hsplit
        refine ⟨m :: past,n,rest,early,late,rfl,hn,?_,hafter⟩
        rw [← hnow,chronicle,List.append_assoc,← hbefore,List.append_nil]
      | cons b mid =>
        rw [List.cons_append,List.cons.injEq] at hlater
        obtain ⟨rfl,rfl⟩ := hlater
        exact ⟨[],m,ms,before,mid,rfl,hnow,rfl,rfl⟩

theorem told_eq_nil {os : List Output} (h : said c os = []) : told c os = [] := by
  refine List.eq_nil_iff_forall_not_mem.mpr fun a ha => ?_
  obtain ⟨frame,rfl,_⟩ := of_mem_told ha
  have hd : Deed.sent frame ∈ deeds (told c os) := List.mem_filterMap.mpr ⟨_,ha,rfl⟩
  rw [deeds_told,h] at hd
  cases hd

theorem stampedOn_of_none (k : CallId) (subject : Option ConnRef) {t : Sender}
    (h : s.conns[c]? = none) : stampedOn k subject c s t = [] := by
  simp [stampedOn,stamped,h]

theorem happens_of_none (hs : s.Sound) (h : s.conns[c]? = none) (m : Move) :
    (s.happens c m = [] ∧ (s.make m).1.conns[c]? = none) ∨
      (s.happens c m = [.sent requestFrame] ∧ ∃ id bound remote now, (s.make m).1.conns[c]? =
        some (Connection.start id bound remote s.settings.threshold now)) := by
  have hlen := List.getElem?_eq_none_iff.mp h
  cases m with
  | retry k =>
    left
    constructor
    · simp only [happens,retried,stampedOn_of_none k _ h,List.nil_append]
      cases hr : Waiting.ready? s.waiting k with
      | none =>
        rw [poll_none hr]
        rfl
      | some call =>
        rw [poll_told hr]
        exact told_eq_nil (attempt_said_of_none h call)
    · rw [make,List.getElem?_eq_none_iff,poll_length]
      exact hlen
  | event e =>
    have hhappens : s.happens c (.event e) = told c (s.react e).2 := by
      simp only [happens,Event.happens,Event.brings,h,stampedOn_of_none _ _ h,List.nil_append]
    rw [hhappens]
    by_cases hmade : ∃ bound remote now, e = .connect bound remote none now ∧ c = s.conns.length
    · obtain ⟨bound,remote,now,rfl,rfl⟩ := hmade
      right
      simp only [make,react,onConnect_eq,told_cons_send,if_true,told_nil,List.append_nil]
      exact ⟨trivial,_,_,_,_,List.getElem?_concat_length⟩
    · left
      constructor
      · refine told_eq_nil ((react_said_of_none hs h e).resolve_right ?_)
        rintro ⟨hc,bound,remote,now,he⟩
        exact hmade ⟨bound,remote,now,he,hc⟩
      · rw [make,List.getElem?_eq_none_iff]
        rcases s.react_length e with hl | ⟨bound,remote,now,rfl⟩
        · rw [hl]
          exact hlen
        · have hne : c ≠ s.conns.length := fun hc => hmade ⟨bound,remote,now,rfl,hc⟩
          simp only [react,onConnect_eq,List.length_append,List.length_singleton]
          exact Nat.lt_of_le_of_ne hlen (Ne.symm hne)

/-- What is known of a sender and one of its connections to which `log` has happened. -/
structure Known (s : Sender) (c : ConnRef) (log : List Happening) : Prop where
  sound : s.Sound
  fresh : s.conns[c]? = none → log = []
  conduct : Few log → ∀ x, s.conns[c]? = some x → Conduct x (deeds log)
  proper : Few log → ∀ e ∈ s.held, e.2.conn = c → e.2.Proper s

theorem known_start (settings : Settings) (c : ConnRef) : (start settings).Known c [] where
  sound := sound_start settings
  fresh := fun _ => rfl
  conduct := by simp [start]
  proper := by simp [start,held]

theorem attempt_settings (s : Sender) (call : Call) :
    (s.attempt call).2.2.settings = s.settings := by
  rcases attempt_cases s call with he | ⟨d,x,pieces,_,he⟩ | ⟨d,he⟩
  · rw [he]
  · rw [he]
    rfl
  · rw [he]
    rfl

theorem enter_settings (s : Sender) (call : Call) :
    (s.enter call).1.settings = s.settings := by
  unfold enter
  simp only
  split
  · exact attempt_settings s call
  · exact attempt_settings s call

theorem onWake_settings (s : Sender) (d : ConnRef) (now : Nat) :
    (s.onWake d now).1.settings = s.settings := by
  unfold onWake
  split
  · rfl
  · split
    · rfl
    · split
      · rfl
      · rfl

theorem onDatagram_settings (s : Sender) (d : ConnRef) (source : Address) (raw : Bytes)
    (now : Nat) : (s.onDatagram d source raw now).1.settings = s.settings := by
  unfold onDatagram
  split
  · rfl
  · split
    · rfl
    · split
      · rfl
      · split
        · unfold onAccept
          split
          · rfl
          · exact onWake_settings _ d now
        · simp only [onAcknowledge]
          split
          · rfl
          · rfl
        · rfl
        · rfl

theorem onTick_settings (s : Sender) (d : ConnRef) : (s.onTick d).settings = s.settings := by
  unfold onTick
  split
  · rfl
  · split
    · simp only
      split
      · rfl
      · rfl
    · rfl

theorem shut_settings (s : Sender) : s.shut.settings = s.settings := by
  have hfold : ∀ (cs : List ConnRef) (t : Sender),
      (cs.foldl (fun s c => (s.modify c fun conn => conn.requestClose.teardown).wakeCalls c)
        t).settings = t.settings := by
    intro cs
    induction cs with
    | nil => exact fun _ => rfl
    | cons d cs ih => exact fun t => ih _
  exact hfold _ _

theorem make_settings (s : Sender) (m : Move) : (s.make m).1.settings = s.settings := by
  cases m with
  | retry k =>
    cases hr : Waiting.ready? s.waiting k with
    | none => rw [make,poll_none hr]
    | some call =>
      simp only [make,poll,hr]
      split
      · exact attempt_settings s call
      · exact attempt_settings s call
  | event e =>
    cases e with
    | connect bound remote refused now =>
      cases refused with
      | some cause => rfl
      | none => simp only [make,react,onConnect_eq]
    | send id data =>
      simp only [make,react]
      split
      · rfl
      · split
        · rfl
        · exact enter_settings s _
    | disconnect id =>
      simp only [make,react]
      split
      · rfl
      · split
        · rfl
        · exact enter_settings _ _
    | close => exact shut_settings s
    | datagram d source raw now => exact onDatagram_settings s d source raw now
    | retry d =>
      simp only [make,react,onRetry]
      split
      · rfl
      · rfl
    | wake d now => exact onWake_settings s d now
    | tick d => exact onTick_settings s d

theorem Known.strokes (h : s.Known c log) (m : Move) {lasting : Prop} (hl : lasting → Few log) :
    Takes s.settings True lasting c s (s.make m).1 (s.happens c m) := by
  intro x hx
  cases m with
  | event e =>
    obtain ⟨y,hy,hs⟩ := react_strokes s e c x hx
    exact ⟨y,hy,hs.mono fun _ => trivial⟩
  | retry k =>
    refine poll_strokes s (fun call hr => h.sound.sized _ (mem_held_of_ready hr)) ?_ x hx
    exact fun call hr hlast hc => h.proper (hl hlast) _ (mem_held_of_ready hr) hc

theorem Known.lasts (h : s.Known c log) {m : Move} (hf : Few (log ++ s.happens c m))
    {x y : Connection} (hx : s.conns[c]? = some x) (hy : (s.make m).1.conns[c]? = some y)
    (he : x.outbox.established = true) : y.outbox.established = true := by
  obtain ⟨z,hz,hs⟩ := h.strokes m (fun _ : True => hf.of_append) x hx
  rw [hy] at hz
  rw [Option.some.inj hz]
  exact (hs.conduct trivial (h.conduct hf.of_append x hx) hf).2 he

/-- A connection that is there after a move was there before and took strokes, or it is new. -/
theorem Known.origin (h : s.Known c log) {m : Move} {lasting : Prop} (hl : lasting → Few log)
    {y : Connection} (hy : (s.make m).1.conns[c]? = some y) :
    (∃ x, s.conns[c]? = some x ∧
      Connection.Strokes s.settings True lasting x (s.happens c m) y) ∨
    (log ++ s.happens c m = [.sent requestFrame] ∧ ∃ id bound remote now,
      y = Connection.start id bound remote s.settings.threshold now) := by
  cases hx : s.conns[c]? with
  | none =>
    right
    rcases happens_of_none h.sound hx m with ⟨_,hn⟩ | ⟨he,id,bound,remote,now,hat⟩
    · rw [hn] at hy
      cases hy
    · rw [hy] at hat
      rw [h.fresh hx,he]
      exact ⟨rfl,id,bound,remote,now,Option.some.inj hat⟩
  | some x =>
    left
    obtain ⟨z,hz,hs⟩ := h.strokes m hl x hx
    rw [hy] at hz
    obtain rfl := Option.some.inj hz
    exact ⟨x,rfl,hs⟩

theorem Known.conduct_make (h : s.Known c log) {m : Move} (hf : Few (log ++ s.happens c m))
    {y : Connection} (hy : (s.make m).1.conns[c]? = some y) :
    Conduct y (deeds (log ++ s.happens c m)) := by
  rcases h.origin (fun _ : True => hf.of_append) hy with
    ⟨x,hx,hs⟩ | ⟨hlog,id,bound,remote,now,rfl⟩
  · exact (hs.conduct trivial (h.conduct hf.of_append x hx) hf).1
  · rw [hlog]
    exact conduct_start id bound remote s.settings.threshold now

theorem Known.keeps_proper (h : s.Known c log) {m : Move} (hf : Few (log ++ s.happens c m))
    {call : Call} (hc : call.conn = c) (hlt : c < s.conns.length) (hp : call.Proper s) :
    call.Proper (s.make m).1 := by
  subst hc
  refine hp.mono fun hest y hy => ?_
  have hx := List.getElem?_eq_getElem hlt
  exact h.lasts hf hx hy (hest _ hx)

theorem Known.proper_make (h : s.Known c log) {m : Move} (hf : Few (log ++ s.happens c m))
    {e : CallId × Call} (he : e ∈ (s.make m).1.held) (hc : e.2.conn = c) :
    e.2.Proper (s.make m).1 := by
  have hlt : ∀ v ∈ s.held, v.2.conn = c → c < s.conns.length := by
    rintro v hv rfl
    exact h.sound.about v hv
  cases m with
  | retry k =>
    obtain ⟨v,hv,hvc,hp⟩ := of_poll_proper he
    refine h.keeps_proper hf hc (hlt v hv (hvc.trans hc)) (hp ?_)
    exact h.proper hf.of_append v hv (hvc.trans hc)
  | event ev =>
    rcases of_react_held he with he | ⟨_,he | ⟨number,x,hest⟩⟩
    · exact h.keeps_proper hf hc (hlt e he hc) (h.proper hf.of_append e he hc)
    · rw [he]
      trivial
    · obtain ⟨hl,hestablished⟩ := established_eq_some_iff.mp hest
      have hx := (lookup_eq_some_iff.mp hl).2
      refine proper_of_established (fun y hy => ?_) ((h.sound.make (.event ev)).sized e he)
      rw [hc] at hx hy
      exact h.lasts hf hx hy hestablished

theorem Known.make (h : s.Known c log) (m : Move) :
    (s.make m).1.Known c (log ++ s.happens c m) where
  sound := h.sound.make m
  fresh := by
    intro hn
    have hnone : s.conns[c]? = none := by
      cases hx : s.conns[c]? with
      | none => rfl
      | some x =>
        obtain ⟨y,hy,_⟩ := h.strokes m (fun hf : False => hf.elim) x hx
        rw [hn] at hy
        cases hy
    rcases happens_of_none h.sound hnone m with ⟨he,_⟩ | ⟨_,id,bound,remote,now,hy⟩
    · rw [he,List.append_nil]
      exact h.fresh hnone
    · rw [hn] at hy
      cases hy
  conduct := fun hf _ hy => h.conduct_make hf hy
  proper := fun hf _ he hc => h.proper_make hf he hc

theorem Known.play (h : s.Known c log) (ms : List Move) :
    (s.play ms).1.Known c (log ++ chronicle c s ms) := by
  induction ms generalizing s log with
  | nil =>
    rw [chronicle,List.append_nil]
    exact h
  | cons m ms ih =>
    rw [chronicle,← List.append_assoc]
    exact ih (h.make m)

theorem known_play (settings : Settings) (ms : List Move) (c : ConnRef) :
    ((start settings).play ms).1.Known c (chronicle c (start settings) ms) :=
  (known_start settings c).play ms

/-- What holds of a new connection and survives every stroke holds of it, whatever else happens.
The strokes may count on how the connection conducts itself if few payloads are pushed on it. -/
theorem Known.induct {P : Connection → List Happening → Prop} {few : Prop} (h : s.Known c log)
    (ms : List Move) (hfew : few → Few (log ++ chronicle c s ms))
    (hp : ∀ x, s.conns[c]? = some x → P x log)
    (hstart : ∀ id bound remote now,
      P (Connection.start id bound remote s.settings.threshold now) [.sent requestFrame])
    (hstroke : ∀ x y log hs, (few → Conduct x (deeds log) ∧ Few (log ++ hs)) → P x log →
      Stroke s.settings True few x hs y → P y (log ++ hs)) :
    ∀ x, (s.play ms).1.conns[c]? = some x → P x (log ++ chronicle c s ms) := by
  induction ms generalizing s log with
  | nil =>
    rw [chronicle,List.append_nil]
    exact hp
  | cons m ms ih =>
    rw [chronicle,← List.append_assoc] at hfew ⊢
    have hnow := fun hf => (hfew hf).of_append
    refine ih (h.make m) hfew ?_ (by rw [make_settings]; exact hstart)
      (by rw [make_settings]; exact hstroke)
    intro y hy
    rcases h.origin (fun hf => (hnow hf).of_append) hy with
      ⟨x,hx,hs⟩ | ⟨hlog,id,bound,remote,now,rfl⟩
    · exact hs.induct (fun hf => ⟨h.conduct (hnow hf).of_append x hx,hnow hf⟩) (hp x hx) hstroke
    · rw [hlog]
      exact hstart id bound remote now

/-- What holds of a new connection and survives every stroke holds of every connection. -/
theorem chronicle_induct {P : Connection → List Happening → Prop} (settings : Settings)
    (ms : List Move) (c : ConnRef)
    (hstart : ∀ id bound remote now,
      P (Connection.start id bound remote settings.threshold now) [.sent requestFrame])
    (hstroke : ∀ x y log hs, (Few (chronicle c (start settings) ms) →
      Conduct x (deeds log) ∧ Few (log ++ hs)) → P x log →
      Stroke settings True (Few (chronicle c (start settings) ms)) x hs y → P y (log ++ hs)) :
    ∀ x, ((start settings).play ms).1.conns[c]? = some x →
      P x (chronicle c (start settings) ms) :=
  (known_start settings c).induct ms id (by simp [start]) hstart hstroke

end Sender
end ReliableTransport
