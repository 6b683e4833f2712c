import ReliableTransport.Proofs.Intake

/-! What a receiver does to its records. Whatever happens to a receiver and whichever call tries
again, its records change by acts only, and what it sends, takes and hands out is what it does in
them (`react_acts`, `poll_acts`). -/
namespace ReliableTransport
namespace Receiver

open Registry (Deed Act Acts)

def sentBy (os : List Output) : List Deed := os.filterMap fun
  | .send dest frame => some (.sent dest frame)
  | .finish _ _ => none

/-- What a reader of an address is told, who reads from a record if there is one. -/
def told (a : Address) (p : Option PeerId) (os : List Output) : List Deed := os.filterMap fun
  | .finish _ (.bytes data) => if data = [] then some (.ended a) else p.map fun p => .handed p data
  | _ => none

def tookFrom (source : Address) (r t : Receiver) : List Deed :=
  match r.registry.connected.get? source with
  | none => []
  | some p =>
    match r.registry.peers[p]?,t.registry.peers[p]? with
    | some x, some y =>
      if y.inbox.next = x.inbox.next then []
      else [.took p (y.inbox.unread.drop x.inbox.unread.length)]
    | _, _ => []

def target (r : Receiver) (a : Address) : Option PeerId :=
  match r.registry.readable a with
  | .live p => some p
  | _ => none

/-- What a receiver does in an event that takes it to `t` with `os` coming out. -/
def Event.deeds (r t : Receiver) (os : List Output) : Event → List Deed
  | .datagram source _ => tookFrom source r t ++ sentBy os
  | .read a room => if room = 0 then [] else told a (r.target a) os
  | _ => sentBy os

def addr (r : Receiver) (p : PeerId) : Option Address := (r.registry.peers[p]?).map (·.addr)

def Call.deeds (r : Receiver) (os : List Output) : Call → List Deed
  | .accept => sentBy os
  | .read p _ =>
    match r.addr p with
    | none => []
    | some a => told a (some p) os

def Hears (e : Event) (a : Address) (frame : Frame) : Prop :=
  ∃ raw, e = .datagram a raw ∧ Frame.receive raw = .ok frame

/-- From `r` to `t` the records change by acts, and `ds` is done in them. -/
def Performs (hears : Address → Frame → Prop) (shutting : Prop) (r t : Receiver)
    (ds : List Deed) : Prop :=
  Acts hears r.settings.capacity r.settings.threshold shutting r.registry ds t.registry

structure Sound (r : Receiver) : Prop where
  registry : r.registry.Sound
  room : ∀ w ∈ r.waiting, ∀ p room, w.call = .read p room → 0 < room

theorem sound_start (settings : Settings) : (start settings).Sound :=
  ⟨Registry.sound_empty _,by simp [start]⟩

section

variable {hears : Address → Frame → Prop} {shutting : Prop} {r : Receiver}

theorem acceptNext_eq_some {a : Address} {frame : Frame} {t : Receiver}
    (h : r.acceptNext = some (a,frame,t)) :
    ∃ p s x, r.registry.accept = some (p,s) ∧ s.peers[p]? = some x ∧ a = x.addr ∧
      frame = reply .acon x.inbox.lastAccepted (Frame.windowOf r.settings.capacity) ∧
      t = { r with registry := s.modify p fun peer => { peer with checking := true } } := by
  unfold acceptNext at h
  cases ha : r.registry.accept with
  | none => simp [ha] at h
  | some e =>
    obtain ⟨p,s⟩ := e
    cases hx : s.peers[p]? with
    | none => simp [ha,hx] at h
    | some x =>
      simp only [ha,hx,Option.bind_eq_bind,Option.bind_some,Option.pure_def,Option.some.injEq,
        Prod.mk.injEq] at h
      exact ⟨p,s,x,rfl,hx,h.1.symm,h.2.1.symm,h.2.2.symm⟩

theorem acceptNext_acts {a : Address} {frame : Frame} {t : Receiver}
    (h : r.acceptNext = some (a,frame,t)) : Performs hears shutting r t [.sent a frame] := by
  obtain ⟨p,s,x,ha,hx,rfl,rfl,rfl⟩ := acceptNext_eq_some h
  exact (Act.greet ha hx).once

theorem acceptMany_acts (fuel : Nat) (r : Receiver) :
    Performs hears shutting r (acceptMany fuel r).2
      ((acceptMany fuel r).1.map fun e => .sent e.1 e.2) := by
  induction fuel generalizing r with
  | zero => exact .done
  | succ fuel ih =>
    unfold acceptMany
    cases h : r.acceptNext with
    | none => exact .done
    | some e =>
      obtain ⟨a,frame,t⟩ := e
      have hset : t.settings = r.settings := by
        obtain ⟨_,_,_,_,_,_,_,rfl⟩ := acceptNext_eq_some h
        rfl
      have hnext := ih t
      unfold Performs at hnext
      rw [hset] at hnext
      exact (acceptNext_acts h).trans hnext

theorem attempt_accept (hears : Address → Frame → Prop) (shutting : Prop) (r : Receiver) :
    Performs hears shutting r (r.attempt .accept).2.2 (sentBy (r.attempt .accept).2.1) ∧
      ∀ data, (r.attempt .accept).1 ≠ .answer (.bytes data) := by
  simp only [attempt]
  split
  · exact ⟨.done,fun data h => by cases h⟩
  · split
    · exact ⟨.done,fun data h => by cases h⟩
    · rename_i a frame t h
      exact ⟨acceptNext_acts h,fun data h => by cases h⟩

/-- What the reader of a record is told by a try: its first bytes, or that there are no more. -/
theorem attempt_read {p : PeerId} {room : Nat} {x : Peer} (hx : r.registry.peers[p]? = some x)
    (hr : 0 < room) :
    r.attempt (.read p room) =
      if x.inbox.unread ≠ [] then
        (.answer (.bytes (x.inbox.read room).1),[],
          r.modify p fun peer => { peer with inbox := (x.inbox.read room).2 })
      else if x.closed then
        (.answer (.bytes []),[],{ r with registry := r.registry.forgetDrained p })
      else if r.closing then (.answer (.bytes []),[],r)
      else (.wait (.read p room),[],r) := by
  have hn : (x.inbox.read room).1 ≠ [] ↔ x.inbox.unread ≠ [] := by
    obtain ⟨n,rfl⟩ : ∃ n, room = n + 1 := ⟨room - 1,by omega⟩
    cases hu : x.inbox.unread with
    | nil => simp [Inbox.read,hu]
    | cons b bs => simp [Inbox.read,hu]
  simp only [attempt,hx]
  by_cases hu : x.inbox.unread ≠ []
  · rw [if_pos hu,if_pos (hn.mpr hu)]
  · rw [if_neg hu,if_neg fun h => hu (hn.mp h)]

/-- What comes out when a try of the call `k` comes to an outcome. -/
def finished (k : CallId) (sent : List Output) : Outcome Call Result → List Output
  | .answer result => sent ++ [.finish k result]
  | .wait _ => sent

theorem attempt_acts (k : CallId) {call : Call}
    (hroom : ∀ p room, call = .read p room → 0 < room) (hs : r.closing = true → shutting) :
    Performs hears shutting r (r.attempt call).2.2
      (call.deeds r (finished k (r.attempt call).2.1 (r.attempt call).1)) := by
  cases call with
  | accept =>
    obtain ⟨ha,hb⟩ := attempt_accept hears shutting r
    have hsent : sentBy (finished k (r.attempt .accept).2.1 (r.attempt .accept).1) =
        sentBy (r.attempt .accept).2.1 := by
      unfold finished
      split
      · simp [sentBy]
      · rfl
    simp only [Call.deeds,hsent]
    exact ha
  | read p room =>
    have hr := hroom p room rfl
    cases hx : r.registry.peers[p]? with
    | none =>
      simp only [Call.deeds,addr,hx,Option.map_none,attempt]
      exact .done
    | some x =>
      simp only [Call.deeds,addr,hx,Option.map_some,attempt_read hx hr]
      by_cases hu : x.inbox.unread ≠ []
      · have hn : (x.inbox.read room).1 ≠ [] := by
          intro he
          obtain ⟨n,rfl⟩ : ∃ n, room = n + 1 := ⟨room - 1,by omega⟩
          cases hb : x.inbox.unread with
          | nil => exact hu hb
          | cons b bs => simp [Inbox.read,hb] at he
        rw [if_pos hu]
        have hd : told x.addr (some p) (finished k [] (.answer (.bytes (x.inbox.read room).1))) =
            [.handed p (x.inbox.read room).1] := by
          simp [told,finished,hn]
        simp only [hd]
        exact (Act.read room hx).once
      · have hd : told x.addr (some p) (finished k [] (.answer (.bytes []))) = [.ended x.addr] :=
          rfl
        rw [if_neg hu]
        split
        · rename_i hc
          simp only [hd]
          exact (Act.finish hx hc (by simpa using hu)).once
        · split
          · rename_i hcl
            simp only [hd]
            exact (Act.cut x.addr (hs hcl)).once
          · exact .done

theorem attempt_eq (r : Receiver) (call : Call) :
    (r.attempt call).2.2 = { r with registry := (r.attempt call).2.2.registry } := by
  cases call with
  | accept =>
    simp only [attempt]
    split
    · rfl
    · split
      · rfl
      · rename_i a frame t h
        obtain ⟨p,s,x,_,_,_,_,rfl⟩ := acceptNext_eq_some h
        rfl
  | read p room =>
    simp only [attempt]
    split
    · rfl
    · split
      · rfl
      · split
        · rfl
        · split
          · rfl
          · rfl

theorem attempt_calls (r : Receiver) (call : Call) : (r.attempt call).2.2.calls = r.calls := by
  rw [attempt_eq]

theorem attempt_waiting (r : Receiver) (call : Call) :
    (r.attempt call).2.2.waiting = r.waiting := by
  rw [attempt_eq]

theorem enter_registry (r : Receiver) (call : Call) :
    (r.enter call).1.registry = (r.attempt call).2.2.registry := by
  simp only [enter]
  split
  · rfl
  · rfl

theorem enter_finished (r : Receiver) (call : Call) :
    (r.enter call).2 = finished r.calls (r.attempt call).2.1 (r.attempt call).1 := by
  simp only [enter]
  split
  · rename_i result ho
    rw [ho]
    simp only [answer,finished,attempt_calls]
  · rename_i later ho
    rw [ho]
    rfl

theorem poll_none {k : CallId} (h : Waiting.ready? r.waiting k = none) : r.poll k = (r,[]) := by
  rw [poll,h]

theorem poll_registry {k : CallId} {call : Call} (h : Waiting.ready? r.waiting k = some call) :
    (r.poll k).1.registry = (r.attempt call).2.2.registry := by
  simp only [poll,h]
  split
  · rfl
  · rfl

theorem poll_finished {k : CallId} {call : Call} (h : Waiting.ready? r.waiting k = some call) :
    (r.poll k).2 = finished k (r.attempt call).2.1 (r.attempt call).1 := by
  simp only [poll,h]
  split
  · rename_i result ho
    rw [ho]
    rfl
  · rename_i later ho
    rw [ho]
    rfl

/-- What a receiver does when a call of a number tries again and `os` comes out. -/
def polled (r : Receiver) (k : CallId) (os : List Output) : List Deed :=
  match Waiting.ready? r.waiting k with
  | none => []
  | some call => call.deeds r os

theorem room_of_ready (h : r.Sound) {k : CallId} {call : Call}
    (hr : Waiting.ready? r.waiting k = some call) {p : PeerId} {room : Nat}
    (hc : call = .read p room) : 0 < room := by
  obtain ⟨w,hw,_,rfl⟩ := Waiting.mem_of_ready? hr
  exact h.room w hw p room hc

theorem poll_acts (h : r.Sound) (k : CallId) (hs : r.closing = true → shutting) :
    Performs hears shutting r (r.poll k).1 (r.polled k (r.poll k).2) := by
  unfold polled
  cases hr : Waiting.ready? r.waiting k with
  | none =>
    rw [poll_none hr]
    exact .done
  | some call =>
    have ha : Performs hears shutting r (r.attempt call).2.2 _ :=
      attempt_acts k (fun _ _ => room_of_ready h hr) hs
    unfold Performs at ha ⊢
    rw [poll_registry hr,poll_finished hr]
    exact ha

theorem onConnect_acts (r : Receiver) {a : Address} {frame : Frame} (hf : hears a frame)
    (hk : frame.kind = .rcon) :
    Performs hears shutting r (r.onConnect a frame.fragment).1
      (sentBy (r.onConnect a frame.fragment).2) := by
  unfold onConnect
  split
  · cases hc : (r.registry.connected.get? a).bind fun p => r.registry.peers[p]? with
    | none => exact .done
    | some x =>
      obtain ⟨p,hp,hx⟩ := Option.bind_eq_some_iff.mp hc
      exact (Act.again hf hk hp hx).once
  · exact .done
  all_goals
    rename_i hst
    have hnone : r.registry.connected.get? a = none ∧ r.registry.pending.get? a = none := by
      unfold Registry.state at hst
      split at hst
      · cases hst
      · split at hst
        · cases hst
        · rename_i h₁ h₂
          exact ⟨by simpa using h₁,by simpa using h₂⟩
    split
    · exact (Act.enlist hf hk hnone.1 hnone.2).once
    · exact .done

theorem next_ne (x : Int32) : x + 1 ≠ x := by
  intro h
  have h₁ : (1 : Int32) = 0 := (Int32.add_eq_left).mp h
  exact absurd h₁ (by decide)

section

variable {a : Address} {p : PeerId} {x : Peer} {fragment : Int32} {payload : Bytes}

theorem onData_of_none (hc : r.registry.connected.get? a = none) :
    r.onData a fragment payload = (r,[]) := by
  simp only [onData,hc]

theorem onData_of_closing (hc : r.registry.connected.get? a = some p)
    (hx : r.registry.peers[p]? = some x) (hcl : x.closing = true) :
    r.onData a fragment payload = (r,[]) := by
  simp only [onData,hc,hx,hcl,if_true]

/-- A fragment out of order, or too large, is answered with what was taken so far. -/
theorem onData_of_refused (hc : r.registry.connected.get? a = some p)
    (hx : r.registry.peers[p]? = some x) (hcl : x.closing = false)
    (ho : x.inbox.offer fragment payload = none) :
    r.onData a fragment payload =
      (r.modify p fun peer => { peer with inbox := x.inbox, silence := peer.silence.reset },
        [.send a (reply .adat x.inbox.lastAccepted x.inbox.window)]) := by
  simp only [onData,hc,hx,hcl,ho,Bool.false_eq_true,if_false,Option.getD_none,
    Option.isSome_none]

theorem onData_of_taken {inbox : Inbox} (hc : r.registry.connected.get? a = some p)
    (hx : r.registry.peers[p]? = some x) (hcl : x.closing = false)
    (ho : x.inbox.offer fragment payload = some inbox) :
    r.onData a fragment payload =
      ((r.modify p fun peer =>
          { peer with inbox := inbox, silence := peer.silence.reset }).wakeReads p,
        [.send a (reply .adat inbox.lastAccepted inbox.window)]) := by
  simp only [onData,hc,hx,hcl,ho,Bool.false_eq_true,if_false,Option.getD_some,
    Option.isSome_some,if_true]

end

theorem onData_acts (h : r.Sound) {a : Address} {frame : Frame} (hf : hears a frame)
    (hk : frame.kind = .data) :
    Performs hears shutting r (r.onData a frame.fragment frame.payload).1
      (tookFrom a r (r.onData a frame.fragment frame.payload).1 ++
        sentBy (r.onData a frame.fragment frame.payload).2) := by
  cases hc : r.registry.connected.get? a with
  | none =>
    rw [onData_of_none hc]
    simp only [tookFrom,hc]
    exact .done
  | some p =>
    obtain ⟨x,hx,_⟩ := h.registry.connected a p hc
    cases hcl : x.closing with
    | true =>
      rw [onData_of_closing hc hx hcl]
      simp only [tookFrom,hc,hx,if_true]
      exact .done
    | false =>
      cases ho : x.inbox.offer frame.fragment frame.payload with
      | none =>
        rw [onData_of_refused hc hx hcl ho]
        have ht : tookFrom a r (r.modify p fun peer => { peer with
            inbox := x.inbox
            silence := peer.silence.reset }) = [] := by
          simp [tookFrom,hc,hx,modify,Registry.modify]
        rw [ht]
        exact (Act.refuse hf hk hc hx hcl).once
      | some inbox =>
        rw [onData_of_taken hc hx hcl ho]
        obtain ⟨_,hi⟩ := Inbox.offer_eq_some_iff.mp ho
        have ht : tookFrom a r ((r.modify p fun peer => { peer with
            inbox := inbox
            silence := peer.silence.reset }).wakeReads p) = [.took p frame.payload] := by
          have hne := next_ne x.inbox.next
          simp [tookFrom,hc,hx,modify,Registry.modify,wakeReads,hi,hne]
        rw [ht]
        exact (Act.take hf hk hc hx hcl ho).once

theorem onClose_acts (r : Receiver) (a : Address) :
    Performs hears shutting r (r.onClose a).1 (sentBy (r.onClose a).2) := by
  unfold onClose
  split
  · rename_i p hc
    exact (Act.leave hc).once
  · split
    · rename_i p s hd
      exact (Act.drop hd).once
    · exact .done

theorem takings_sentBy (p : PeerId) (os : List Output) :
    Registry.takings p (sentBy os) = [] := by
  induction os with
  | nil => rfl
  | cons o os ih =>
    cases o with
    | send dest frame => exact ih
    | finish k result => exact ih

theorem tookFrom_of_sent {t : Receiver} {os : List Output} (h : r.Sound) (a : Address)
    (ht : Performs hears shutting r t (sentBy os)) : tookFrom a r t = [] := by
  unfold tookFrom
  split
  · rfl
  · rename_i p _
    split
    · rename_i x y hx hy
      obtain ⟨z,hz,hn⟩ := Registry.Acts.next_eq ht h.registry (takings_sentBy p os) hx
      rw [hy] at hz
      rw [Option.some.inj hz,if_pos hn]
    · rfl

theorem onDatagram_acts (h : r.Sound) (a : Address) (raw : Bytes) :
    Performs (Hears (.datagram a raw)) shutting r (r.onDatagram a raw).1
      (tookFrom a r (r.onDatagram a raw).1 ++ sentBy (r.onDatagram a raw).2) := by
  have hsent : ∀ {t : Receiver} {os : List Output},
      Performs (Hears (.datagram a raw)) shutting r t (sentBy os) →
      Performs (Hears (.datagram a raw)) shutting r t (tookFrom a r t ++ sentBy os) := by
    intro t os hp
    rw [tookFrom_of_sent h a hp]
    exact hp
  unfold onDatagram
  split
  · exact hsent (show Performs _ _ r r (sentBy []) from .done)
  · split
    · exact hsent (show Performs _ _ r r (sentBy []) from .done)
    · rename_i frame hr
      have hf : Hears (.datagram a raw) a frame := ⟨raw,rfl,hr⟩
      split
      · rename_i hk
        exact hsent (onConnect_acts r hf hk)
      · rename_i hk
        exact onData_acts h hf hk
      · exact hsent (onClose_acts r a)
      · exact hsent (show Performs _ _ r r (sentBy []) from .done)

theorem onTick_acts (r : Receiver) (p : PeerId) : Performs hears shutting r (r.onTick p) [] := by
  unfold onTick
  split
  · exact .done
  · rename_i x hx
    split
    · rename_i hc
      have htick : Act hears r.settings.capacity r.settings.threshold shutting r.registry [] _ :=
        .tick p (x.silence.tick r.settings.period)
      simp only
      split
      · exact htick.once.trans (Act.fall (Registry.peers_modify_self hx) hc).once
      · exact htick.once
    · exact .done

theorem shut_registry (hc : r.closing = false) : r.shut.registry = r.registry.shut := by
  have hfold : ∀ (ps : List PeerId) (t : Receiver),
      (ps.foldl (fun r p => (r.modify p .teardown).wakeReads p) t).registry =
        ps.foldl (fun r p => r.modify p .teardown) t.registry := by
    intro ps
    induction ps with
    | nil => exact fun _ => rfl
    | cons p ps ih => exact fun t => ih _
  unfold shut
  rw [hc]
  exact hfold _ _

theorem shut_closing (r : Receiver) : r.shut.closing = true := by
  have hfold : ∀ (ps : List PeerId) (t : Receiver),
      (ps.foldl (fun r p => (r.modify p .teardown).wakeReads p) t).closing = t.closing := by
    intro ps
    induction ps with
    | nil => exact fun _ => rfl
    | cons p ps ih => exact fun t => ih _
  unfold shut
  split
  · assumption
  · exact hfold _ _

theorem shut_acts (r : Receiver) (hs : shutting) : Performs hears shutting r r.shut [] := by
  cases hc : r.closing with
  | true =>
    have he : r.shut = r := by
      unfold shut
      rw [if_pos hc]
    rw [he]
    exact .done
  | false =>
    unfold Performs
    rw [shut_registry hc]
    exact (Act.shut hs).once

theorem read_acts (h : r.Sound) (a : Address) (room : Nat) (hs : r.closing = true → shutting) :
    Performs hears shutting r (r.react (.read a room)).1
      ((Event.read a room).deeds r (r.react (.read a room)).1 (r.react (.read a room)).2) := by
  simp only [react,Event.deeds]
  by_cases hr : room = 0
  · rw [if_pos hr]
    split
    · exact .done
    · split
      · exact .done
      · exact .done
      · exact .done
  · rw [if_neg hr]
    split
    · exact .done
    · unfold target
      cases hl : r.registry.readable a with
      | unknown => exact .done
      | closed =>
        have hret : r.registry.retired.get? a = some .drained := by
          unfold Registry.readable at hl
          split at hl
          · cases hl
          · split at hl
            · cases hl
            · assumption
            · cases hl
        exact (Act.marked hret).once
      | live p =>
        have hp : r.addr p = some a := by
          unfold Registry.readable at hl
          unfold addr
          split at hl
          · rename_i q hc
            cases hl
            obtain ⟨x,hx,ha,_⟩ := h.registry.connected a p hc
            rw [hx,Option.map_some,ha]
          · split at hl
            · rename_i q hq
              cases hl
              obtain ⟨x,hx,ha,_⟩ := h.registry.unread a p hq
              rw [hx,Option.map_some,ha]
            · cases hl
            · cases hl
        have hd : (Call.read p room).deeds r (r.enter (.read p room)).2 =
            told a (some p) (r.enter (.read p room)).2 := by
          simp only [Call.deeds,hp]
        simp only
        rw [← hd,enter_finished]
        have hact : Performs hears shutting r (r.attempt (.read p room)).2.2 _ :=
          attempt_acts r.calls (fun _ _ hc => by cases hc; omega) hs
        unfold Performs at hact ⊢
        rw [enter_registry]
        exact hact

def Alike (r t : Receiver) : Prop := t.settings = r.settings ∧ t.closing = r.closing

theorem attempt_alike (r : Receiver) (call : Call) : r.Alike (r.attempt call).2.2 := by
  rw [attempt_eq]
  exact ⟨rfl,rfl⟩

theorem enter_alike (r : Receiver) (call : Call) : r.Alike (r.enter call).1 := by
  have ha := attempt_alike r call
  simp only [enter]
  split
  · exact ha
  · exact ha

theorem poll_alike (r : Receiver) (k : CallId) : r.Alike (r.poll k).1 := by
  cases hr : Waiting.ready? r.waiting k with
  | none =>
    rw [poll_none hr]
    exact ⟨rfl,rfl⟩
  | some call =>
    have ha := attempt_alike r call
    simp only [poll,hr]
    split
    · exact ha
    · exact ha

theorem acceptMany_alike (fuel : Nat) (r : Receiver) : r.Alike (acceptMany fuel r).2 := by
  induction fuel generalizing r with
  | zero => exact ⟨rfl,rfl⟩
  | succ fuel ih =>
    unfold acceptMany
    cases h : r.acceptNext with
    | none => exact ⟨rfl,rfl⟩
    | some e =>
      obtain ⟨a,frame,t⟩ := e
      obtain ⟨_,_,_,_,_,_,_,rfl⟩ := acceptNext_eq_some h
      exact ih _

theorem onDatagram_alike (r : Receiver) (source : Address) (raw : Bytes) :
    r.Alike (r.onDatagram source raw).1 := by
  have hr : r.Alike r := ⟨rfl,rfl⟩
  unfold onDatagram
  split
  · exact hr
  · split
    · exact hr
    · split
      · unfold onConnect
        split
        · split
          · exact hr
          · exact hr
        · exact hr
        all_goals
          split
          · exact hr
          · exact hr
      · unfold onData
        split
        · exact hr
        · split
          · exact hr
          · split
            · exact hr
            · simp only
              split
              · exact hr
              · exact hr
      · unfold onClose
        split
        · exact hr
        · split
          · exact hr
          · exact hr
      · exact hr

theorem onTick_alike (r : Receiver) (p : PeerId) : r.Alike (r.onTick p) := by
  unfold onTick
  split
  · exact ⟨rfl,rfl⟩
  · split
    · simp only
      split
      · exact ⟨rfl,rfl⟩
      · exact ⟨rfl,rfl⟩
    · exact ⟨rfl,rfl⟩

theorem react_alike (r : Receiver) {e : Event} (he : e ≠ .close) : r.Alike (r.react e).1 := by
  cases e with
  | datagram source raw => exact onDatagram_alike r source raw
  | acceptOne => exact enter_alike r .accept
  | acceptAll =>
    simp only [react]
    split
    · exact ⟨rfl,rfl⟩
    · exact acceptMany_alike _ r
  | read a room =>
    simp only [react]
    split
    · exact ⟨rfl,rfl⟩
    · split
      · exact ⟨rfl,rfl⟩
      · exact ⟨rfl,rfl⟩
      · split
        · exact ⟨rfl,rfl⟩
        · exact enter_alike r _
  | tick p => exact onTick_alike r p
  | close => exact absurd rfl he

theorem shut_settings (r : Receiver) : r.shut.settings = r.settings := by
  have hfold : ∀ (ps : List PeerId) (t : Receiver),
      (ps.foldl (fun r p => (r.modify p .teardown).wakeReads p) t).settings = t.settings := by
    intro ps
    induction ps with
    | nil => exact fun _ => rfl
    | cons p ps ih => exact fun t => ih _
  unfold shut
  split
  · rfl
  · exact hfold _ _

theorem react_settings (r : Receiver) (e : Event) : (r.react e).1.settings = r.settings := by
  by_cases he : e = .close
  · subst he
    exact shut_settings r
  · exact (react_alike r he).1

theorem react_closed {e : Event} (h : r.closing = true) : (r.react e).1.closing = true := by
  by_cases he : e = .close
  · subst he
    exact shut_closing r
  · rw [(react_alike r he).2,h]

theorem sentBy_append (os ps : List Output) : sentBy (os ++ ps) = sentBy os ++ sentBy ps :=
  List.filterMap_append

theorem sentBy_map_send (es : List (Address × Frame)) :
    sentBy (es.map fun e => .send e.1 e.2) = es.map fun e => .sent e.1 e.2 := by
  induction es with
  | nil => rfl
  | cons e es ih =>
    show .sent e.1 e.2 :: sentBy _ = _
    rw [ih]
    rfl

/-- Whatever happens to a receiver, its records only change by acts. -/
theorem react_acts (h : r.Sound) (e : Event) (hs : (r.react e).1.closing = true → shutting) :
    Performs (Hears e) shutting r (r.react e).1 (e.deeds r (r.react e).1 (r.react e).2) := by
  cases e with
  | datagram source raw => exact onDatagram_acts h source raw
  | acceptOne =>
    have hact : Performs (Hears .acceptOne) shutting r (r.attempt .accept).2.2 _ :=
      attempt_acts r.calls (fun _ _ hc => by cases hc) fun hc => hs (react_closed hc)
    unfold Performs at hact ⊢
    simp only [react,enter_registry,enter_finished]
    exact hact
  | acceptAll =>
    simp only [react,Event.deeds]
    split
    · exact .done
    · have hd : sentBy ((acceptMany r.registry.pending.length r).1.map (fun e => .send e.1 e.2) ++
          [.finish (acceptMany r.registry.pending.length r).2.calls (.acceptedAll
            ((acceptMany r.registry.pending.length r).1.map (·.1)))]) =
          (acceptMany r.registry.pending.length r).1.map fun e => .sent e.1 e.2 := by
        rw [sentBy_append,sentBy_map_send]
        simp [sentBy]
      simp only [answer,hd]
      exact acceptMany_acts _ r
  | read a room => exact read_acts h a room fun hc => hs (react_closed hc)
  | tick p => exact onTick_acts r p
  | close => exact shut_acts r (hs (shut_closing r))

def Rooms (ws : List (Waiting Call)) : Prop :=
  ∀ w ∈ ws, ∀ p room, w.call = .read p room → 0 < room

theorem rooms_wake {ws : List (Waiting Call)} (h : Rooms ws) (concerns : Call → Bool) :
    Rooms (Waiting.wake ws concerns) := by
  intro w hw
  obtain ⟨v,hv,rfl⟩ := List.mem_map.mp hw
  exact h v hv

theorem waiting_wakeReads (r : Receiver) (p : PeerId) :
    (r.wakeReads p).waiting = Waiting.wake r.waiting fun c => match c with
      | .read q _ => q = p
      | .accept => false := rfl

theorem waiting_wakeAccepts (r : Receiver) :
    r.wakeAccepts.waiting = Waiting.wake r.waiting fun c => c = .accept := rfl

theorem rooms_wakeReads (h : Rooms r.waiting) (p : PeerId) : Rooms (r.wakeReads p).waiting := by
  rw [waiting_wakeReads]
  exact rooms_wake h _

theorem rooms_wakeAccepts (h : Rooms r.waiting) : Rooms r.wakeAccepts.waiting := by
  rw [waiting_wakeAccepts]
  exact rooms_wake h _

theorem attempt_wait {call later : Call} (h : (r.attempt call).1 = .wait later) :
    later = call := by
  cases call with
  | accept =>
    simp only [attempt] at h
    split at h
    · cases h
    · split at h
      · cases h
        rfl
      · cases h
  | read p room =>
    simp only [attempt] at h
    split at h
    · cases h
    · split at h
      · cases h
      · split at h
        · cases h
        · split at h
          · cases h
          · cases h
            rfl

theorem rooms_enter {call : Call} (h : Rooms r.waiting)
    (hc : ∀ p room, call = .read p room → 0 < room) : Rooms (r.enter call).1.waiting := by
  simp only [enter]
  split
  · simp only [answer,attempt_waiting]
    exact h
  · rename_i later ho
    intro w hw
    rw [ho,attempt_waiting] at hw
    rcases List.mem_append.mp hw with hw | hw
    · exact h w hw
    · rw [List.mem_singleton.mp hw,attempt_wait ho]
      exact hc

theorem rooms_poll (h : Rooms r.waiting) (k : CallId) : Rooms (r.poll k).1.waiting := by
  cases hr : Waiting.ready? r.waiting k with
  | none =>
    rw [poll_none hr]
    exact h
  | some call =>
    have hcall : ∀ p room, call = .read p room → 0 < room := by
      obtain ⟨w,hw,_,rfl⟩ := Waiting.mem_of_ready? hr
      exact h w hw
    simp only [poll,hr]
    split
    · rename_i result ho
      intro w hw
      rw [ho,attempt_waiting] at hw
      exact h w (List.mem_filter.mp hw).1
    · rename_i later ho
      intro w hw
      rw [ho,attempt_waiting] at hw
      obtain ⟨v,hv,rfl⟩ := List.mem_map.mp hw
      split
      · rw [attempt_wait ho]
        exact hcall
      · exact h v hv

theorem rooms_acceptMany (fuel : Nat) (h : Rooms r.waiting) :
    Rooms (acceptMany fuel r).2.waiting := by
  induction fuel generalizing r with
  | zero => exact h
  | succ fuel ih =>
    unfold acceptMany
    cases ha : r.acceptNext with
    | none => exact h
    | some e =>
      obtain ⟨a,frame,t⟩ := e
      obtain ⟨_,_,_,_,_,_,_,rfl⟩ := acceptNext_eq_some ha
      exact ih h

theorem rooms_shut (h : Rooms r.waiting) : Rooms r.shut.waiting := by
  have hfold : ∀ (ps : List PeerId) (t : Receiver), Rooms t.waiting →
      Rooms (ps.foldl (fun r p => (r.modify p .teardown).wakeReads p) t).waiting := by
    intro ps
    induction ps with
    | nil => exact fun _ ht => ht
    | cons p ps ih => exact fun t ht => ih _ (rooms_wakeReads (r := t.modify p .teardown) ht p)
  unfold shut
  split
  · exact h
  · exact hfold _ _ (rooms_wakeAccepts (r := { r with
      closing := true
      registry := r.registry.drain.2 }) h)

theorem rooms_onDatagram (h : Rooms r.waiting) (source : Address) (raw : Bytes) :
    Rooms (r.onDatagram source raw).1.waiting := by
  unfold onDatagram
  split
  · exact h
  · split
    · exact h
    · split
      · unfold onConnect
        split
        · split
          · exact h
          · exact h
        · exact h
        all_goals
          split
          · refine rooms_wakeAccepts ?_
            exact h
          · exact h
      · unfold onData
        split
        · exact h
        · split
          · exact h
          · split
            · exact h
            · simp only
              split
              · refine rooms_wakeReads ?_ _
                exact h
              · exact h
      · unfold onClose
        split
        · exact h
        · split
          · exact h
          · exact h
      · exact h

theorem rooms_react (h : Rooms r.waiting) (e : Event) : Rooms (r.react e).1.waiting := by
  cases e with
  | datagram source raw => exact rooms_onDatagram h source raw
  | acceptOne => exact rooms_enter h fun _ _ hc => by cases hc
  | acceptAll =>
    simp only [react]
    split
    · exact h
    · exact rooms_acceptMany _ h
  | read a room =>
    simp only [react]
    split
    · exact h
    · split
      · exact h
      · exact h
      · split
        · exact h
        · refine rooms_enter h fun _ _ hc => ?_
          cases hc
          omega
  | tick p =>
    simp only [react,onTick]
    split
    · exact h
    · split
      · split
        · refine rooms_wakeReads ?_ p
          exact h
        · exact h
      · exact h
  | close => exact rooms_shut h

theorem Sound.react (h : r.Sound) (e : Event) : (r.react e).1.Sound where
  registry := by
    have ha : Performs (Hears e) True r (r.react e).1 _ := react_acts h e fun _ => trivial
    exact Registry.Acts.sound ha h.registry
  room := rooms_react h.room e

theorem Sound.poll (h : r.Sound) (k : CallId) : (r.poll k).1.Sound where
  registry := by
    have ha : Performs (fun _ _ => True) True r (r.poll k).1 _ := poll_acts h k fun _ => trivial
    exact Registry.Acts.sound ha h.registry
  room := rooms_poll h.room k

end

end Receiver
end ReliableTransport
