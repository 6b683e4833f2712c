import ReliableTransport.Proofs.Turns

/-! What one move does to one connection, said once. A stroke is the smallest change of a connection
together with all that happens to it meanwhile: what it hears, what it sends, what is pushed on it,
and each period of silence (`Stroke`). Whatever happens to a sender and whichever call tries again,
every connection it has changes by strokes only (`react_strokes`, `poll_strokes`), and so it only
takes turns (`react_plays`, `poll_plays`). -/
namespace ReliableTransport
namespace Connection

open Sender Outbox

/-- What happens to a connection, of its own doing or not. -/
inductive Happening
  | heard (frame : Frame)
  | opened
  | sent (frame : Frame)
  | pushed (k : CallId) (piece : Int32 × Bytes)
  | ticked
  | shut
  deriving DecidableEq

def deeds (log : List Happening) : List Deed := log.filterMap fun
  | .sent frame => some (.sent frame)
  | .pushed k piece => some (.pushed k piece.2)
  | _ => none

@[simp] theorem deeds_nil : deeds [] = [] := rfl

@[simp] theorem deeds_append (log more : List Happening) :
    deeds (log ++ more) = deeds log ++ deeds more :=
  List.filterMap_append

@[simp] theorem deeds_sent (frames : List Frame) :
    deeds (frames.map .sent) = frames.map .sent := by
  induction frames with
  | nil => rfl
  | cons _ _ ih => exact congrArg (_ :: ·) ih

@[simp] theorem deeds_pushed (k : CallId) (pieces : List (Int32 × Bytes)) :
    deeds (pieces.map (.pushed k)) = (pieces.map (·.2)).map (.pushed k) := by
  simp [deeds,List.filterMap_map,Function.comp_def]

/-- One change of a connection and what happens to it meanwhile, given the settings of its sender,
whether a call for it asks its remote once more, and whether a connection that was accepted once
stays so. -/
inductive Stroke (settings : Settings) (asking lasting : Prop) :
    Connection → List Happening → Connection → Prop
  | drain {x : Connection} : Stroke settings asking lasting x [] { x with state := .draining }
  | stop {x : Connection} (h : x.closing = true ∨ x.closed = true) :
      Stroke settings asking lasting x [] { x with pumping := false }
  | ask {x : Connection} (h : asking) : Stroke settings asking lasting x [.sent requestFrame] x
  | hold {x : Connection} {pieces : List Bytes} (k : CallId)
      (he : lasting → x.outbox.established = true) (hc : x.closed = false)
      (hroom : pieces.length ≤ x.outbox.room) (hs : ∀ piece ∈ pieces, Sized piece) :
      Stroke settings asking lasting x ((x.outbox.stamps pieces).map (.pushed k))
        { x with outbox := x.outbox.extend pieces }
  | leave {x : Connection} (he : lasting → x.outbox.established = true) (hc : x.closed = false)
      (hd : x.outbox.drained = true) :
      Stroke settings asking lasting x [.sent leaveFrame] x.requestClose
  | accept {x : Connection} {frame : Frame} {now : Nat} {outbox : Outbox}
      (hl : x.listening = true) (hk : frame.kind = .acon)
      (he : x.outbox.establish frame.window now = some outbox) :
      Stroke settings asking lasting x [.heard frame,.opened]
        { x with
          outbox := outbox
          silence := x.silence.reset
          state := .connected
          pumping := true
          checking := true }
  | ignore {x : Connection} {frame : Frame} (hl : x.listening = true)
      (hk : frame.kind ≠ .adat ∧ frame.kind ≠ .acls)
      (he : frame.kind = .acon → x.outbox.established = true) :
      Stroke settings asking lasting x [.heard frame] x
  | pump {x : Connection} (now : Nat) (hp : x.pumping = true) (hc : x.closing = false)
      (ho : x.closed = false) :
      Stroke settings asking lasting x
        (((x.outbox.flush now minWindow settings.resend.nanos).1.map dataFrame ++
          [lifeFrame]).map .sent)
        { x with outbox := (x.outbox.flush now minWindow settings.resend.nanos).2 }
  | heed {x : Connection} {frame : Frame} {now : Nat} (hl : x.listening = true)
      (hk : frame.kind = .adat) :
      Stroke settings asking lasting x [.heard frame]
        { x with
          outbox := (x.outbox.acknowledge frame.fragment frame.window now).2
          silence := if x.closing then x.silence else x.silence.reset }
  | dismiss {x : Connection} {frame : Frame} (hl : x.listening = true) (hk : frame.kind = .acls) :
      Stroke settings asking lasting x [.heard frame] x.requestClose
  | pass {x : Connection} (hc : x.checking = false) : Stroke settings asking lasting x [.ticked] x
  | wait {x : Connection} (hc : x.checking = true)
      (he : (x.silence.tick settings.period).expired = false) :
      Stroke settings asking lasting x [.ticked] { x with silence := x.silence.tick settings.period }
  | lapse {x : Connection} (hc : x.checking = true)
      (he : (x.silence.tick settings.period).expired = true) :
      Stroke settings asking lasting x [.ticked]
        { { x with silence := x.silence.tick settings.period }.teardown with checking := false }
  | shut {x : Connection} : Stroke settings asking lasting x [.shut] x.requestClose.teardown

inductive Strokes (settings : Settings) (asking lasting : Prop) :
    Connection → List Happening → Connection → Prop
  | done {x : Connection} : Strokes settings asking lasting x [] x
  | next {x y z : Connection} {log more : List Happening}
      (h : Stroke settings asking lasting x log y) (hs : Strokes settings asking lasting y more z) :
      Strokes settings asking lasting x (log ++ more) z

section

variable {settings : Settings} {asking lasting : Prop} {x y z : Connection}
  {log more : List Happening}

theorem Stroke.once (h : Stroke settings asking lasting x log y) :
    Strokes settings asking lasting x log y := by
  have hs := Strokes.next h .done
  rwa [List.append_nil] at hs

theorem Strokes.trans (h : Strokes settings asking lasting x log y)
    (hs : Strokes settings asking lasting y more z) :
    Strokes settings asking lasting x (log ++ more) z := by
  induction h with
  | done => exact hs
  | next h _ ih =>
    rw [List.append_assoc]
    exact .next h (ih hs)

theorem Stroke.mono {still : Prop} (h : Stroke settings asking lasting x log y)
    (hm : asking → still) : Stroke settings still lasting x log y := by
  cases h with
  | drain => exact .drain
  | stop h => exact .stop h
  | ask h => exact .ask (hm h)
  | hold k he hc hroom hs => exact .hold k he hc hroom hs
  | leave he hc hd => exact .leave he hc hd
  | accept hl hk he => exact .accept hl hk he
  | ignore hl hk he => exact .ignore hl hk he
  | pump now hp hc ho => exact .pump now hp hc ho
  | heed hl hk => exact .heed hl hk
  | dismiss hl hk => exact .dismiss hl hk
  | pass hc => exact .pass hc
  | wait hc he => exact .wait hc he
  | lapse hc he => exact .lapse hc he
  | shut => exact .shut

theorem Strokes.mono {still : Prop} (h : Strokes settings asking lasting x log y)
    (hm : asking → still) : Strokes settings still lasting x log y := by
  induction h with
  | done => exact .done
  | next h _ ih => exact .next (h.mono hm) ih

theorem Stroke.turn (h : Stroke settings asking lasting x log y) (hl : lasting) :
    Turn (fun frame => .heard frame ∈ log) asking settings.resend.nanos x (deeds log) y := by
  have hsame : ∀ {frame : Frame}, Turn (fun frame => .heard frame ∈ log) asking
      settings.resend.nanos x (deeds [.heard frame]) x := fun {_} => .mark (.refl x)
  cases h with
  | drain =>
    exact .mark ⟨rfl,rfl,rfl,fun h => h,fun h => h,.inl,fun h => h,.inl,fun h => h,.inl⟩
  | stop h =>
    exact .mark ⟨rfl,rfl,rfl,fun h => h,fun h => h,.inl,fun h => h,.inl,
      fun h => Bool.noConfusion h,fun _ => .inr h⟩
  | ask h => exact .request h
  | hold k he hc hroom hs =>
    rw [deeds_pushed,map_snd_stamps hroom]
    exact .hold k (he hl) hc hroom hs
  | leave he hc hd => exact .leave (he hl) hc hd
  | accept hl hk he => exact .accept hl List.mem_cons_self hk he
  | ignore hl hk he => exact hsame
  | pump now hp hc ho =>
    rw [deeds_sent]
    exact .pump now hp hc ho
  | heed hl hk => exact .heed hl List.mem_cons_self hk
  | dismiss hl hk => exact .mark (marks_requestClose x)
  | pass hc => exact .mark (.refl x)
  | wait hc he =>
    exact .mark ⟨rfl,rfl,rfl,fun h => h,fun h => h,.inl,fun h => h,.inl,fun h => h,.inl⟩
  | lapse hc he =>
    exact .mark ⟨rfl,rfl,rfl,fun h => h,fun _ => rfl,fun _ => .inr ⟨rfl,rfl⟩,
      fun h => Bool.noConfusion h,fun _ => .inr rfl,fun h => Bool.noConfusion h,
      fun _ => .inr (.inr rfl)⟩
  | shut => exact .mark ((marks_requestClose x).trans (marks_teardown _))

theorem Strokes.turns (h : Strokes settings asking lasting x log y) (hl : lasting)
    {hears : Frame → Prop} (hh : ∀ frame, .heard frame ∈ log → hears frame) :
    Turns hears asking settings.resend.nanos x (deeds log) y := by
  induction h with
  | done => exact .done
  | next h _ ih =>
    rw [deeds_append]
    refine .next ((h.turn hl).mono (fun frame hf => hh frame ?_) fun h => h)
      (ih fun frame hf => hh frame ?_)
    · exact List.mem_append_left _ hf
    · exact List.mem_append_right _ hf

end

def hears (x : Connection) (source : Address) (raw : Bytes) : List Happening :=
  if x.listening && source = x.remote then
    match Frame.receive raw with
    | .error _ => []
    | .ok frame =>
      .heard frame :: if frame.kind = .acon && !x.outbox.established then [.opened] else []
  else []

theorem of_mem_hears {x : Connection} {source : Address} {raw : Bytes} {a : Happening}
    (h : a ∈ x.hears source raw) : x.listening = true ∧ source = x.remote ∧
      ∃ frame, Frame.receive raw = .ok frame ∧ (a = .heard frame ∨
        (a = .opened ∧ frame.kind = .acon ∧ x.outbox.established = false)) := by
  unfold hears at h
  split at h
  · rename_i hg
    rw [Bool.and_eq_true,decide_eq_true_eq] at hg
    refine ⟨hg.1,hg.2,?_⟩
    split at h
    · cases h
    · rename_i frame hf
      refine ⟨frame,hf,?_⟩
      rcases List.mem_cons.mp h with he | hm
      · exact .inl he
      · split at hm
        · rename_i ho
          rw [Bool.and_eq_true,decide_eq_true_eq,Bool.not_eq_true'] at ho
          exact .inr ⟨List.mem_singleton.mp hm,ho⟩
        · cases hm
  · cases h

end Connection

namespace Sender

open Connection

/-- The frames of one connection among what comes out of a sender, as what happens to it. -/
def told (c : ConnRef) (os : List Output) : List Happening := os.filterMap fun
  | .send d frame => if d = c then some (.sent frame) else none
  | .finish _ _ => none

@[simp] theorem told_nil (c : ConnRef) : told c [] = [] := rfl

@[simp] theorem told_append (c : ConnRef) (os ps : List Output) :
    told c (os ++ ps) = told c os ++ told c ps :=
  List.filterMap_append

@[simp] theorem told_finish (c : ConnRef) (k : CallId) (result : Result) :
    told c [.finish k result] = [] := rfl

@[simp] theorem told_cons_send (c d : ConnRef) (frame : Frame) (os : List Output) :
    told c (.send d frame :: os) = (if d = c then [.sent frame] else []) ++ told c os := by
  by_cases h : d = c <;> simp [told,h]

theorem told_map (c d : ConnRef) (frames : List Frame) :
    told c (frames.map (.send d)) = if d = c then frames.map .sent else [] := by
  induction frames with
  | nil => exact (ite_self _).symm
  | cons frame frames ih =>
    rw [List.map_cons,told_cons_send,ih]
    split
    · rfl
    · rfl

theorem deeds_told (c : ConnRef) (os : List Output) : deeds (told c os) = said c os := by
  induction os with
  | nil => rfl
  | cons o os ih =>
    cases o with
    | finish k result => exact ih
    | send d frame =>
      rw [told_cons_send,said_cons_send,deeds_append,ih]
      congr 1
      split
      · rfl
      · rfl

/-- What is pushed on a connection from `s` to `t`, each piece under the number it will be sent
as. -/
def stamped (k : CallId) (c : ConnRef) (s t : Sender) : List Happening :=
  match s.conns[c]? with
  | none => []
  | some x => (x.outbox.stamps (grown s t c)).map (.pushed k)

/-- What a call has pushed on connection `c`, if it pushes on that one. -/
def stampedOn (k : CallId) (subject : Option ConnRef) (c : ConnRef) (s t : Sender) :
    List Happening :=
  if subject = some c then stamped k c s t else []

theorem of_mem_told {c : ConnRef} {os : List Output} {a : Happening} (h : a ∈ told c os) :
    ∃ frame, a = .sent frame ∧ .send c frame ∈ os := by
  obtain ⟨o,ho,ha⟩ := List.mem_filterMap.mp h
  cases o with
  | finish k result => cases ha
  | send d frame =>
    simp only at ha
    split at ha
    · rename_i hd
      subst hd
      exact ⟨frame,(Option.some.inj ha).symm,ho⟩
    · cases ha

theorem of_mem_stampedOn {k : CallId} {subject : Option ConnRef} {c : ConnRef} {s t : Sender}
    {a : Happening} (h : a ∈ stampedOn k subject c s t) : ∃ piece, a = .pushed k piece := by
  unfold stampedOn stamped at h
  split at h
  · split at h
    · cases h
    · obtain ⟨piece,_,rfl⟩ := List.mem_map.mp h
      exact ⟨piece,rfl⟩
  · cases h

def Event.brings (s : Sender) (c : ConnRef) (e : Event) : List Happening :=
  match s.conns[c]? with
  | none => []
  | some x =>
    match e with
    | .datagram d source raw _ => if d = c then x.hears source raw else []
    | .tick d => if d = c then [.ticked] else []
    | .close => if c ∈ s.table.drain.1 then [.shut] else []
    | _ => []

theorem of_mem_brings {s : Sender} {c : ConnRef} {e : Event} {a : Happening}
    (h : a ∈ e.brings s c) :
    (∃ frame, a = .heard frame) ∨ a = .opened ∨ (a = .ticked ∧ e = .tick c) ∨ a = .shut := by
  unfold Event.brings at h
  split at h
  · cases h
  · split at h
    · split at h
      · obtain ⟨_,_,frame,_,rfl | ⟨rfl,_⟩⟩ := of_mem_hears h
        · exact .inl ⟨frame,rfl⟩
        · exact .inr (.inl rfl)
      · cases h
    · split at h
      · rename_i hd
        rw [List.mem_singleton.mp h,hd]
        exact .inr (.inr (.inl ⟨rfl,rfl⟩))
      · cases h
    · split at h
      · exact .inr (.inr (.inr (List.mem_singleton.mp h)))
      · cases h
    · cases h

/-- From `s` to `t` a connection changes by strokes, and `log` happens to it in them. -/
def Takes (settings : Settings) (asking lasting : Prop) (c : ConnRef) (s t : Sender)
    (log : List Happening) : Prop :=
  ∀ x, s.conns[c]? = some x →
    ∃ y, t.conns[c]? = some y ∧ Strokes settings asking lasting x log y

section

variable {settings : Settings} {asking lasting : Prop} {c : ConnRef} {s t u : Sender}
  {log more : List Happening}

theorem takes_of_eq (h : t.conns[c]? = s.conns[c]?) : Takes settings asking lasting c s t [] :=
  fun x hx => ⟨x,h.trans hx,.done⟩

theorem Takes.trans (h : Takes settings asking lasting c s t log)
    (ht : Takes settings asking lasting c t u more) :
    Takes settings asking lasting c s u (log ++ more) := by
  intro x hx
  obtain ⟨y,hy,hxy⟩ := h x hx
  obtain ⟨z,hz,hyz⟩ := ht y hy
  exact ⟨z,hz,hxy.trans hyz⟩

theorem Takes.congr (h : Takes settings asking lasting c s t log) (hu : u.conns = t.conns) :
    Takes settings asking lasting c s u log := by
  intro x hx
  obtain ⟨y,hy,hxy⟩ := h x hx
  exact ⟨y,by rw [hu,hy],hxy⟩

theorem takes_modify {f : Connection → Connection} {d : ConnRef} {x : Connection}
    (hx : s.conns[d]? = some x) (h : d = c → Strokes settings asking lasting x log (f x))
    (hn : d ≠ c → log = []) : Takes settings asking lasting c s (s.modify d f) log := by
  intro y hy
  by_cases hd : d = c
  · subst hd
    rw [hx] at hy
    obtain rfl := Option.some.inj hy
    exact ⟨f x,conns_modify_self hx f,h rfl⟩
  · refine ⟨y,?_,?_⟩
    · simp only [modify]
      rw [List.getElem?_modify_ne _ _ hd,hy]
    · rw [hn hd]
      exact .done

end

section

variable {settings : Settings} {asking lasting : Prop} {c : ConnRef}

theorem onWake_strokes (s : Sender) (d : ConnRef) (now : Nat) :
    Takes s.settings asking lasting c s (s.onWake d now).1 (told c (s.onWake d now).2) := by
  unfold onWake
  cases hd : s.conns[d]? with
  | none => exact takes_of_eq rfl
  | some x =>
    by_cases hp : x.pumping = true
    · by_cases hc : (x.closing || x.closed) = true
      · simp only [hp,Bool.not_true,Bool.false_eq_true,if_false,hc,if_true,told_nil]
        refine takes_modify hd (fun _ => Stroke.once (.stop ?_)) fun _ => rfl
        rwa [Bool.or_eq_true] at hc
      · simp only [hp,Bool.not_true,Bool.false_eq_true,if_false,hc,told_map]
        refine takes_modify hd (fun hdc => ?_) fun hne => by rw [if_neg hne]
        rw [Bool.or_eq_true,not_or,Bool.not_eq_true,Bool.not_eq_true] at hc
        rw [if_pos hdc]
        exact (Stroke.pump now hp hc.1 hc.2).once
    · simp only [hp,Bool.not_false,if_true]
      exact takes_of_eq rfl

theorem onTick_strokes (s : Sender) (d : ConnRef) :
    Takes s.settings asking lasting c s (s.onTick d) (if d = c then [.ticked] else []) := by
  unfold onTick
  cases hd : s.conns[d]? with
  | none =>
    have hne : ∀ x, s.conns[c]? = some x → ¬ d = c := by
      rintro x hx rfl
      rw [hd] at hx
      cases hx
    exact fun x hx => ⟨x,hx,by rw [if_neg (hne x hx)]; exact .done⟩
  | some x =>
    simp only
    split
    · rename_i hc
      cases he : (x.silence.tick s.settings.period).expired with
      | false =>
        simp only [Bool.false_eq_true,if_false]
        refine takes_modify hd (fun hdc => ?_) fun hne => if_neg hne
        rw [if_pos hdc]
        exact (Stroke.wait hc he).once
      | true =>
        simp only [if_true]
        have hm : Takes s.settings asking lasting c s (s.modify d fun conn =>
            { { conn with silence := x.silence.tick s.settings.period }.teardown with
              checking := false }) (if d = c then [.ticked] else []) := by
          refine takes_modify hd (fun hdc => ?_) fun hne => if_neg hne
          rw [if_pos hdc]
          exact (Stroke.lapse hc he).once
        refine hm.congr ?_
        simp only [modify,conns_wakeCalls,List.modify_modify_eq]
        rfl
    · rename_i hc
      intro y hy
      refine ⟨y,hy,?_⟩
      split
      · rename_i hdc
        rw [← hdc,hd] at hy
        obtain rfl := Option.some.inj hy
        exact (Stroke.pass (by simpa using hc)).once
      · exact .done

theorem requestClose_teardown_twice (x : Connection) :
    x.requestClose.teardown.requestClose.teardown = x.requestClose.teardown := by
  simp [requestClose,teardown,halt,Silence.expire_expire]

theorem shut_strokes (s : Sender) :
    Takes s.settings asking lasting c s s.shut (if c ∈ s.table.drain.1 then [.shut] else []) := by
  unfold shut
  have hfold : ∀ (ds : List ConnRef) (t : Sender) x, t.conns[c]? = some x →
      (ds.foldl (fun s d => (s.modify d fun conn => conn.requestClose.teardown).wakeCalls d)
        t).conns[c]? = some (if c ∈ ds then x.requestClose.teardown else x) := by
    intro ds
    induction ds with
    | nil => exact fun t x hx => hx
    | cons d ds ih =>
      intro t x hx
      by_cases hd : d = c
      · subst hd
        have hat : ((t.modify d fun conn => conn.requestClose.teardown).wakeCalls d).conns[d]? =
            some x.requestClose.teardown := conns_modify_self hx _
        rw [List.foldl_cons,ih _ _ hat,if_pos List.mem_cons_self]
        split
        · rw [requestClose_teardown_twice]
        · rfl
      · have hat : ((t.modify d fun conn => conn.requestClose.teardown).wakeCalls d).conns[c]? =
            some x := by
          simp only [conns_wakeCalls,modify]
          rw [List.getElem?_modify_ne _ _ hd,hx]
        rw [List.foldl_cons,ih _ _ hat]
        simp [Ne.symm hd]
  intro x hx
  refine ⟨_,hfold _ { s with table := s.table.drain.2 } x hx,?_⟩
  split
  · exact Stroke.shut.once
  · exact .done

theorem onRetry_strokes (s : Sender) (d : ConnRef) :
    Takes s.settings (d = c ∧ Asking s c) lasting c s (s.onRetry d).1 (told c (s.onRetry d).2) := by
  unfold onRetry
  split
  · rename_i hw
    obtain ⟨w,hw,hcall⟩ := List.any_eq_true.mp hw
    intro x hx
    refine ⟨x,hx,?_⟩
    rw [told_cons_send,told_nil,List.append_nil]
    split
    · rename_i hdc
      subst hdc
      exact (Stroke.ask ⟨rfl,w,hw,by simpa using hcall⟩).once
    · exact .done
  · exact takes_of_eq rfl

theorem onAccept_strokes (s : Sender) {d : ConnRef} {x : Connection} (hx : s.conns[d]? = some x)
    {frame : Frame} (hl : x.listening = true) (hk : frame.kind = .acon) (now : Nat) :
    Takes s.settings asking lasting c s (s.onAccept d x frame.window now).1
      ((if d = c then .heard frame :: if !x.outbox.established then [.opened] else [] else []) ++
        told c (s.onAccept d x frame.window now).2) := by
  unfold onAccept
  cases he : x.outbox.establish frame.window now with
  | none =>
    have hest : x.outbox.established = true := by
      unfold Outbox.establish at he
      split at he
      · assumption
      · cases he
    intro y hy
    refine ⟨y,hy,?_⟩
    simp only [hest,Bool.not_true,Bool.false_eq_true,if_false,told_nil,List.append_nil]
    split
    · rename_i hdc
      rw [← hdc,hx] at hy
      obtain rfl := Option.some.inj hy
      refine (Stroke.ignore hl ?_ fun _ => hest).once
      rw [hk]
      exact ⟨by decide,by decide⟩
    · exact .done
  | some outbox =>
    have hest := Outbox.not_established_of_establish he
    simp only [hest,Bool.not_false,if_true]
    refine Takes.trans ?_ (onWake_strokes _ _ _)
    refine (takes_modify hx (fun hdc => ?_) fun hne => if_neg hne).congr rfl
    rw [if_pos hdc]
    exact (Stroke.accept hl hk he).once

theorem onAcknowledge_strokes (s : Sender) {d : ConnRef} {x : Connection}
    (hx : s.conns[d]? = some x) {frame : Frame} (hl : x.listening = true)
    (hk : frame.kind = .adat) (now : Nat) :
    Takes s.settings asking lasting c s (s.onAcknowledge d x frame.fragment frame.window now)
      (if d = c then [.heard frame] else []) := by
  have h : Takes s.settings asking lasting c s (s.modify d fun conn =>
      { conn with
        outbox := (x.outbox.acknowledge frame.fragment frame.window now).2
        silence := if conn.closing then conn.silence else conn.silence.reset })
      (if d = c then [.heard frame] else []) := by
    refine takes_modify hx (fun hdc => ?_) fun hne => if_neg hne
    rw [if_pos hdc]
    exact (Stroke.heed hl hk).once
  unfold onAcknowledge
  simp only
  split
  · exact h.congr rfl
  · exact h

theorem ignore_strokes {s : Sender} {d : ConnRef} {x : Connection} (hx : s.conns[d]? = some x)
    {frame : Frame} (hl : x.listening = true)
    (hk : frame.kind ≠ .acon ∧ frame.kind ≠ .adat ∧ frame.kind ≠ .acls) :
    Takes settings asking lasting c s s (if d = c then [.heard frame] else []) := by
  intro y hy
  refine ⟨y,hy,?_⟩
  split
  · rename_i hdc
    rw [← hdc,hx] at hy
    obtain rfl := Option.some.inj hy
    exact (Stroke.ignore hl hk.2 fun h => absurd h hk.1).once
  · exact .done

theorem onFrame_strokes (s : Sender) {d : ConnRef} {x : Connection} (hx : s.conns[d]? = some x)
    (hl : x.listening = true) {source : Address} (hr : source = x.remote) {raw : Bytes}
    {frame : Frame} (hf : Frame.receive raw = .ok frame) (now : Nat) :
    Takes s.settings asking lasting c s (s.onDatagram d source raw now).1
      ((if d = c then .heard frame ::
        if frame.kind = .acon && !x.outbox.established then [.opened] else [] else []) ++
        told c (s.onDatagram d source raw now).2) := by
  have hguard : ¬ (!x.listening || decide (source ≠ x.remote)) = true := by simp [hl,hr]
  simp only [onDatagram,hx,if_neg hguard,hf]
  cases hk : frame.kind with
  | acon =>
    simp only [decide_true,Bool.true_and]
    exact onAccept_strokes s hx hl hk now
  | adat =>
    simp only [reduceCtorEq,decide_false,Bool.false_and,Bool.false_eq_true,if_false,told_nil,
      List.append_nil]
    exact onAcknowledge_strokes s hx hl hk now
  | acls =>
    simp only [reduceCtorEq,decide_false,Bool.false_and,Bool.false_eq_true,if_false,told_nil,
      List.append_nil]
    refine (takes_modify hx (fun hdc => ?_) fun hne => if_neg hne).congr rfl
    rw [if_pos hdc]
    exact (Stroke.dismiss hl hk).once
  | _ =>
    simp only [reduceCtorEq,decide_false,Bool.false_and,Bool.false_eq_true,if_false,told_nil,
      List.append_nil]
    exact ignore_strokes hx hl (by rw [hk]; decide)

theorem onDatagram_strokes (s : Sender) {x : Connection} (hx : s.conns[c]? = some x) (d : ConnRef)
    (source : Address) (raw : Bytes) (now : Nat) :
    Takes s.settings asking lasting c s (s.onDatagram d source raw now).1
      ((if d = c then x.hears source raw else []) ++ told c (s.onDatagram d source raw now).2) := by
  cases hd : s.conns[d]? with
  | none =>
    have hne : ¬ d = c := by
      rintro rfl
      rw [hd] at hx
      cases hx
    simp only [onDatagram,hd,if_neg hne]
    exact takes_of_eq rfl
  | some y =>
    have hsame : (if d = c then x.hears source raw else []) =
        if d = c then y.hears source raw else [] := by
      split
      · rename_i hdc
        rw [← hdc,hd] at hx
        rw [Option.some.inj hx]
      · rfl
    rw [hsame]
    by_cases hl : y.listening = true
    · by_cases hr : source = y.remote
      · have hg : (y.listening && decide (source = y.remote)) = true := by simp [hl,hr]
        cases hf : Frame.receive raw with
        | error e =>
          simp only [onDatagram,hd,hears,hf,ite_self]
          exact takes_of_eq rfl
        | ok frame =>
          have hears_eq : y.hears source raw = .heard frame ::
              if frame.kind = .acon && !y.outbox.established then [.opened] else [] := by
            simp only [hears,if_pos hg,hf]
          rw [hears_eq]
          exact onFrame_strokes s hd hl hr hf now
      · have hguard : (!y.listening || decide (source ≠ y.remote)) = true := by simp [hr]
        simp only [onDatagram,hd,if_pos hguard,hears,hr,decide_false,Bool.and_false,
          Bool.false_eq_true,if_false,ite_self]
        exact takes_of_eq rfl
    · have hguard : (!y.listening || decide (source ≠ y.remote)) = true := by simp [hl]
      simp only [onDatagram,hd,hears,hl,Bool.false_and,Bool.false_eq_true,if_false,ite_self]
      exact takes_of_eq rfl

end

section

variable {settings : Settings} {asking lasting : Prop} {c : ConnRef}

theorem stamped_of_eq {s t : Sender} (k : CallId) (h : t.conns[c]? = s.conns[c]?) :
    stamped k c s t = [] := by
  unfold stamped
  split
  · rfl
  · rw [grown_of_eq h]
    rfl

theorem stampedOn_of_eq {s t : Sender} (k : CallId) (subject : Option ConnRef)
    (h : t.conns[c]? = s.conns[c]?) : stampedOn k subject c s t = [] := by
  unfold stampedOn
  split
  · exact stamped_of_eq k h
  · rfl

theorem stampedOn_congr {s t u : Sender} (k : CallId) (subject : Option ConnRef)
    (h : u.conns = t.conns) : stampedOn k subject c s u = stampedOn k subject c s t := by
  simp [stampedOn,stamped,grown,slots,h]

theorem stampedOn_of_ne {s t : Sender} {d : ConnRef} (k : CallId) (h : d ≠ c) :
    stampedOn k (some d) c s t = [] := if_neg (by simpa using h)

theorem stampedOn_hold {s : Sender} {x : Connection} (k : CallId) (hx : s.conns[c]? = some x)
    (pieces : List Bytes) :
    stampedOn k (some c) c s
      (s.modify c fun conn => { conn with outbox := x.outbox.extend pieces }) =
      (x.outbox.stamps pieces).map (.pushed k) := by
  rw [stampedOn,if_pos rfl,stamped,hx]
  simp only
  rw [grown_hold hx]

theorem stampedOn_disconnect (s : Sender) (k : CallId) (d : ConnRef) :
    stampedOn k (some d) c s (s.attempt (.disconnect d)).2.2 = [] := by
  by_cases hd : d = c
  · subst hd
    rw [stampedOn,if_pos rfl]
    unfold stamped
    split
    · rfl
    · rw [grown_disconnect]
      rfl
  · exact stampedOn_of_ne k hd

theorem disconnect_strokes (s : Sender) {d : ConnRef}
    (hp : lasting → d = c → (Call.disconnect d).Proper s) :
    Takes settings asking lasting c s (s.attempt (.disconnect d)).2.2
      (told c (s.attempt (.disconnect d)).2.1) := by
  cases hx : s.conns[d]? with
  | none =>
    rw [attempt_of_none hx]
    exact takes_of_eq rfl
  | some x =>
    rw [attempt_disconnect hx]
    split
    · exact takes_of_eq rfl
    · rename_i hc
      split
      · rename_i hd
        rw [told_cons_send,told_nil,List.append_nil]
        refine (takes_modify hx (fun hdc => ?_) fun hne => if_neg hne).congr rfl
        rw [if_pos hdc]
        exact (Stroke.leave (fun h => hp h hdc x hx) (by simpa using hc) hd).once
      · exact takes_of_eq rfl

theorem hold_strokes (s : Sender) (k : CallId) {d : ConnRef} {x : Connection} {rest : List Bytes}
    {last : Int32} (hx : s.conns[d]? = some x) (hs : (Call.send d rest last).Sized)
    (hp : lasting → d = c → (Call.send d rest last).Proper s)
    (hc : ¬ (rest ≠ [] ∧ x.closed = true)) :
    Takes settings asking lasting c s
      (s.modify d fun conn => { conn with outbox := x.outbox.extend (rest.take x.outbox.room) })
      (stampedOn k (some d) c s (s.modify d fun conn =>
        { conn with outbox := x.outbox.extend (rest.take x.outbox.room) })) := by
  refine takes_modify hx (fun hdc => ?_) fun hne => stampedOn_of_ne k hne
  subst hdc
  rw [stampedOn_hold k hx]
  cases hcl : x.closed with
  | true =>
    obtain rfl : rest = [] := Decidable.not_not.mp fun hne => hc ⟨hne,hcl⟩
    rw [List.take_nil,Outbox.extend_nil,← hcl]
    exact .done
  | false =>
    have h : Stroke settings asking lasting x
        ((x.outbox.stamps (rest.take x.outbox.room)).map (.pushed k))
        { x with outbox := x.outbox.extend (rest.take x.outbox.room) } :=
      .hold k (fun h => (hp h rfl).1 x hx) hcl (Outbox.length_take_room _ rest)
        fun piece hm => hs _ (List.mem_of_mem_take hm)
    rw [← hcl]
    exact h.once

theorem attempt_strokes (s : Sender) (k : CallId) {call : Call} (hs : call.Sized)
    (hp : lasting → call.conn = c → call.Proper s) :
    Takes settings asking lasting c s (s.attempt call).2.2
      (stampedOn k (some call.conn) c s (s.attempt call).2.2 ++ told c (s.attempt call).2.1) := by
  have hsame : (s.attempt call).2 = ([],s) → Takes settings asking lasting c s (s.attempt call).2.2
      (stampedOn k (some call.conn) c s (s.attempt call).2.2 ++ told c (s.attempt call).2.1) := by
    intro h
    rw [h,stampedOn_of_eq k _ rfl]
    exact takes_of_eq rfl
  cases hx : s.conns[call.conn]? with
  | none => exact hsame (by rw [attempt_of_none hx])
  | some x =>
    cases call with
    | connect d => exact hsame (attempt_connect_unchanged s d)
    | disconnect d =>
      simp only [Call.conn,stampedOn_disconnect,List.nil_append]
      exact disconnect_strokes s hp
    | send d rest last =>
      have hx : s.conns[d]? = some x := hx
      by_cases hc : rest ≠ [] ∧ x.closed = true
      · exact hsame (by rw [attempt_send_of_closed last hx hc])
      · rw [attempt_send last hx hc,told_nil,List.append_nil]
        exact hold_strokes s k hx hs hp hc

theorem enter_told (s : Sender) (call : Call) (c : ConnRef) :
    told c (s.enter call).2 = told c (s.attempt call).2.1 := by
  unfold enter
  simp only
  split
  · simp [answer]
  · rfl

theorem poll_told {s : Sender} {k : CallId} {call : Call}
    (h : Waiting.ready? s.waiting k = some call) (c : ConnRef) :
    told c (s.poll k).2 = told c (s.attempt call).2.1 := by
  simp only [poll,h]
  split
  · simp
  · rfl

def Event.happens (s : Sender) (c : ConnRef) (e : Event) : List Happening :=
  e.brings s c ++ stampedOn s.calls (e.subject s) c s (s.react e).1 ++ told c (s.react e).2

def retried (s : Sender) (c : ConnRef) (k : CallId) : List Happening :=
  stampedOn k (s.subject k) c s (s.poll k).1 ++ told c (s.poll k).2

/-- A call that tries again has no connection change but by strokes. -/
theorem poll_strokes (s : Sender) {k : CallId}
    (hs : ∀ call, Waiting.ready? s.waiting k = some call → call.Sized)
    (hp : ∀ call, Waiting.ready? s.waiting k = some call → lasting → call.conn = c →
      call.Proper s) :
    Takes settings asking lasting c s (s.poll k).1 (s.retried c k) := by
  unfold retried subject
  cases h : Waiting.ready? s.waiting k with
  | none =>
    rw [poll_none h]
    exact takes_of_eq rfl
  | some call =>
    rw [Option.map_some,stampedOn_congr _ _ (poll_conns h),poll_told h]
    exact (attempt_strokes s k (hs call h) (hp call h)).congr (poll_conns h)

theorem enter_strokes (s : Sender) {call : Call} (hs : call.Sized)
    (hp : lasting → call.conn = c → call.Proper s) :
    Takes settings asking lasting c s (s.enter call).1
      (stampedOn s.calls (some call.conn) c s (s.enter call).1 ++ told c (s.enter call).2) := by
  rw [stampedOn_congr _ _ (enter_conns s call),enter_told]
  exact (attempt_strokes s s.calls hs hp).congr (enter_conns s call)

theorem answer_strokes (s : Sender) (result : Result) :
    Takes settings asking lasting c s (s.answer [] result).1 (told c (s.answer [] result).2) :=
  takes_of_eq rfl

theorem onConnect_strokes (s : Sender) (bound remote : Address) (now : Nat) :
    Takes settings asking lasting c s (s.onConnect bound remote now).1
      (told c (s.onConnect bound remote now).2) := by
  intro x hx
  have hlt := (List.getElem?_eq_some_iff.mp hx).1
  have hne : ¬ s.conns.length = c := by omega
  refine ⟨x,?_,?_⟩
  · simp only [onConnect,enter_conns,attempt_connect_unchanged]
    rw [List.getElem?_append_left hlt,hx]
  · simp only [onConnect,told_cons_send,if_neg hne,enter_told,attempt_connect_unchanged,told_nil,
      List.append_nil]
    exact .done

/-- Whatever happens to a sender, each of its connections only changes by strokes. -/
theorem react_strokes (s : Sender) (e : Event) (c : ConnRef) :
    Takes s.settings (e = .retry c ∧ Asking s c) lasting c s (s.react e).1 (e.happens s c) := by
  intro x hx
  have hnone : ∀ k t, stampedOn k none c s t = [] := fun k t => if_neg (by simp)
  cases e with
  | connect bound remote refused now =>
    simp only [Event.happens,Event.brings,hx,Event.subject,hnone,List.nil_append]
    cases refused with
    | some cause => exact answer_strokes s _ x hx
    | none => exact onConnect_strokes s bound remote now x hx
  | send id data =>
    simp only [Event.happens,Event.brings,hx,Event.subject,react,List.nil_append]
    cases he : s.established id with
    | none =>
      simp only [Option.map_none,hnone,List.nil_append]
      exact answer_strokes s _ x hx
    | some e =>
      obtain ⟨d,y⟩ := e
      simp only [Option.map_some]
      split
      · rw [stampedOn_of_eq _ _ (show (s.answer [] .delivered).1.conns[c]? = s.conns[c]? from rfl)]
        exact answer_strokes s _ x hx
      · have hp := proper_send he data
        have hs : (Call.send d (chunks Frame.maxPayload data) 0).Sized := hp.2
        exact enter_strokes s hs (fun _ _ => hp) x hx
  | disconnect id =>
    simp only [Event.happens,Event.brings,hx,Event.subject,hnone,react,List.nil_append]
    cases he : s.established id with
    | none => exact answer_strokes s _ x hx
    | some e =>
      obtain ⟨d,y⟩ := e
      obtain ⟨hl,hest⟩ := established_eq_some_iff.mp he
      have hy := (lookup_eq_some_iff.mp hl).2
      simp only
      split
      · exact answer_strokes s _ x hx
      · have hdrain : Takes s.settings (Event.disconnect id = .retry c ∧ Asking s c) lasting c s
            (s.modify d fun conn => { conn with state := .draining }) [] :=
          takes_modify hy (fun _ => Stroke.drain.once) fun _ => rfl
        rw [enter_told]
        refine Takes.congr (hdrain.trans (disconnect_strokes _ fun _ _ => ?_)) (enter_conns _ _) x hx
        intro z hz
        rw [conns_modify_self hy] at hz
        rw [← Option.some.inj hz]
        exact hest
  | close =>
    simp only [Event.happens,Event.brings,hx,Event.subject,hnone,List.append_nil]
    rw [show told c (s.react .close).2 = [] from rfl,List.append_nil]
    exact (shut_strokes s).congr rfl x hx
  | datagram d source raw now =>
    simp only [Event.happens,Event.brings,hx,Event.subject,hnone,List.append_nil]
    exact onDatagram_strokes s hx d source raw now x hx
  | retry d =>
    simp only [Event.happens,Event.brings,hx,Event.subject,hnone,List.nil_append]
    obtain ⟨y,hy,hs⟩ := onRetry_strokes s d x hx
    exact ⟨y,hy,hs.mono fun h => ⟨by rw [h.1],h.2⟩⟩
  | wake d now =>
    simp only [Event.happens,Event.brings,hx,Event.subject,hnone,List.nil_append]
    exact onWake_strokes s d now x hx
  | tick d =>
    simp only [Event.happens,Event.brings,hx,Event.subject,hnone,List.append_nil]
    rw [show told c (s.react (.tick d)).2 = [] from rfl,List.append_nil]
    exact onTick_strokes s d x hx

theorem grown_attempt (s : Sender) {call : Call} {x : Connection}
    (hx : s.conns[call.conn]? = some x) :
    (grown s (s.attempt call).2.2 call.conn).length ≤ x.outbox.room := by
  cases call with
  | connect d =>
    rw [attempt_connect_unchanged,grown_of_eq rfl]
    exact Nat.zero_le _
  | disconnect d =>
    rw [Call.conn,grown_disconnect]
    exact Nat.zero_le _
  | send d rest last =>
    have hx : s.conns[d]? = some x := hx
    by_cases hc : rest ≠ [] ∧ x.closed = true
    · rw [attempt_send_of_closed last hx hc,grown_of_eq rfl]
      exact Nat.zero_le _
    · rw [attempt_send last hx hc,Call.conn,grown_hold hx]
      exact Outbox.length_take_room _ rest

theorem deeds_stampedOn (k : CallId) {s t : Sender} (call : Call)
    (hx : ∃ x, s.conns[c]? = some x) (ht : t.conns = (s.attempt call).2.2.conns) :
    deeds (stampedOn k (some call.conn) c s t) = added k call.conn c s t := by
  obtain ⟨x,hx⟩ := hx
  unfold added
  split
  · rename_i hd
    have hroom := grown_attempt s (hd.symm ▸ hx)
    have hgrown : grown s t c = grown s (s.attempt call).2.2 c := by
      simp only [grown,slots,ht]
    rw [hd,← hgrown] at hroom
    rw [stampedOn,if_pos (by rw [hd]),stamped,hx]
    simp only
    rw [deeds_pushed,Outbox.map_snd_stamps hroom]
  · rename_i hd
    rw [stampedOn_of_ne k hd]
    rfl

theorem deeds_brings (s : Sender) (c : ConnRef) (e : Event) : deeds (e.brings s c) = [] := by
  refine List.filterMap_eq_nil_iff.mpr fun a ha => ?_
  rcases of_mem_brings ha with ⟨frame,rfl⟩ | rfl | ⟨rfl,_⟩ | rfl
  all_goals rfl

theorem deeds_happens {s : Sender} (hx : ∃ x, s.conns[c]? = some x) (e : Event) :
    deeds (e.happens s c) =
      addedOn s.calls (e.subject s) c s (s.react e).1 ++ said c (s.react e).2 := by
  rw [Event.happens,deeds_append,deeds_append,deeds_brings,List.nil_append,deeds_told]
  congr 1
  have hnone : ∀ t, deeds (stampedOn s.calls none c s t) = [] := fun t => by
    rw [stampedOn,if_neg (by simp)]
    rfl
  cases e with
  | send id data =>
    simp only [Event.subject,react]
    cases he : s.established id with
    | none => exact hnone _
    | some e =>
      obtain ⟨d,y⟩ := e
      simp only [Option.map_some,addedOn]
      split
      · have hsame : (s.answer [] .delivered).1.conns[c]? = s.conns[c]? := rfl
        rw [stampedOn_of_eq _ _ hsame,added_of_eq _ hsame]
        rfl
      · exact deeds_stampedOn s.calls (.send d (chunks Frame.maxPayload data) 0) hx
          (enter_conns s _)
  | _ => exact hnone _

theorem deeds_retried {s : Sender} (hx : ∃ x, s.conns[c]? = some x) {k : CallId} {call : Call}
    (h : Waiting.ready? s.waiting k = some call) :
    deeds (s.retried c k) = added k call.conn c s (s.poll k).1 ++ said c (s.poll k).2 := by
  rw [retried,deeds_append,deeds_told,subject,h,Option.map_some,
    deeds_stampedOn k call hx (poll_conns h)]

theorem hears_of_happens {s : Sender} {e : Event} {frame : Frame}
    (h : .heard frame ∈ e.happens s c) : Hears s e c frame := by
  rw [Event.happens,List.mem_append,List.mem_append] at h
  rcases h with (h | h) | h
  · unfold Event.brings at h
    split at h
    · cases h
    · rename_i x hx
      split at h
      · rename_i d source raw now
        split at h
        · rename_i hd
          subst hd
          obtain ⟨_,hr,frame',hf,hm⟩ := of_mem_hears h
          rcases hm with hm | ⟨hm,_⟩
          · refine ⟨source,raw,now,rfl,by rw [hf,Happening.heard.inj hm],fun y hy => ?_⟩
            rw [hx] at hy
            rw [← Option.some.inj hy,hr]
          · cases hm
        · cases h
      · simp at h
      · simp at h
      · cases h
  · obtain ⟨piece,hp⟩ := of_mem_stampedOn h
    cases hp
  · obtain ⟨frame',hp,_⟩ := of_mem_told h
    cases hp

/-- Whatever happens to a sender, each of its connections only takes turns. -/
theorem react_plays (s : Sender) (e : Event) (c : ConnRef) :
    Plays (Hears s e c) (Asking s c) s.settings.resend.nanos c s (s.react e).1
      (addedOn s.calls (e.subject s) c s (s.react e).1 ++ said c (s.react e).2) := by
  intro x hx
  obtain ⟨y,hy,hs⟩ := react_strokes s e c x hx
  rw [← deeds_happens ⟨x,hx⟩]
  exact ⟨y,hy,(hs.mono fun h => h.2).turns trivial fun _ hf => hears_of_happens hf⟩

theorem poll_plays {hears : Frame → Prop} {asking : Prop} (s : Sender) {k : CallId} {call : Call}
    (h : Waiting.ready? s.waiting k = some call) (hs : call.Sized)
    (hp : call.conn = c → call.Proper s) :
    Plays hears asking s.settings.resend.nanos c s (s.poll k).1
      (added k call.conn c s (s.poll k).1 ++ said c (s.poll k).2) := by
  have hready : ∀ later, Waiting.ready? s.waiting k = some later → later = call := by
    intro later hl
    rw [h] at hl
    exact (Option.some.inj hl).symm
  intro x hx
  obtain ⟨y,hy,ht⟩ := poll_strokes s (fun later hl => by rw [hready later hl]; exact hs)
    (fun later hl (_ : True) => by rw [hready later hl]; exact hp) x hx
  rw [← deeds_retried ⟨x,hx⟩ h]
  refine ⟨y,hy,ht.turns trivial fun frame hf => ?_⟩
  rcases List.mem_append.mp hf with hf | hf
  · obtain ⟨piece,hp⟩ := of_mem_stampedOn hf
    cases hp
  · obtain ⟨frame',hp,_⟩ := of_mem_told hf
    cases hp

end

end Sender
end ReliableTransport
