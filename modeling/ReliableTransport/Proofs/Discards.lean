import Mathlib.Data.List.Nodup
import ReliableTransport.Proofs.Language
import ReliableTransport.Proofs.Standing
import ReliableTransport.Proofs.Stillness

/-! Datagrams that are of no use. A datagram that is no frame, or whose frame has no business where
it arrives, leaves a receiver and a sender as they are, and the calls that wait asleep. A receiver
has no other datagrams without effect than these and requests to connect that it has no answer to
(`onDatagram_unchanged_iff`). Whatever arrives for one connection of a sender, the others and the
calls about them are as before (`Beside`). -/
namespace ReliableTransport

namespace Frame

/-- As much of the datagram as one frame can fill is too short for a frame, or fails its
checksum. -/
def Garbled (raw : Bytes) : Prop :=
  (raw.take maxLength).length < headerLength ∨
    stated (raw.take maxLength) ≠ checksum ((raw.take maxLength).drop 8)

theorem garbled_iff {raw : Bytes} : Garbled raw ↔ ∃ e, receive raw = .error e := by
  unfold Garbled receive decode
  by_cases hl : (raw.take maxLength).length < headerLength
  · rw [if_pos hl]
    exact iff_of_true (.inl hl) ⟨_,rfl⟩
  · rw [if_neg hl]
    by_cases hs : stated (raw.take maxLength) ≠ checksum ((raw.take maxLength).drop 8)
    · rw [if_pos hs]
      exact iff_of_true (.inr hs) ⟨_,rfl⟩
    · rw [if_neg hs]
      refine iff_of_false (not_or.mpr ⟨hl,hs⟩) ?_
      rintro ⟨e,he⟩
      cases he

end Frame

namespace Receiver

variable {r : Receiver} {a : Address} {raw : Bytes} {frame : Frame}

/-- The datagrams from the address `a` that are of no use to a receiver. -/
inductive Unusable (r : Receiver) (a : Address) (raw : Bytes) : Prop
  | garbled (h : Frame.Garbled raw)
  | stray {frame : Frame} (hf : Frame.receive raw = .ok frame) (hr : frame.kind ≠ .rcon)
      (hd : frame.kind ≠ .data) (hl : frame.kind ≠ .rcls)
  | data {frame : Frame} (hf : Frame.receive raw = .ok frame) (hk : frame.kind = .data)
      (hs : r.registry.state a ≠ .connected)
  | late {frame : Frame} {p : PeerId} {x : Peer} (hf : Frame.receive raw = .ok frame)
      (hk : frame.kind = .data) (hc : r.registry.connected.get? a = some p)
      (hx : r.registry.peers[p]? = some x) (hcl : x.closing = true)
  | farewell {frame : Frame} (hf : Frame.receive raw = .ok frame) (hk : frame.kind = .rcls)
      (hp : r.registry.state a ≠ .pending) (hc : r.registry.state a ≠ .connected)

/-- Requests to connect from the address `a` that a receiver neither grants nor answers. -/
inductive Idle (r : Receiver) (a : Address) (raw : Bytes) : Prop
  | waits {frame : Frame} (hf : Frame.receive raw = .ok frame) (hk : frame.kind = .rcon)
      (hs : r.registry.state a = .pending)
  | refused {frame : Frame} (hf : Frame.receive raw = .ok frame) (hk : frame.kind = .rcon)
      (hs : r.registry.state a ≠ .connected) (hr : r.settings.admits = false)

theorem get?_connected_of_state (hs : r.registry.state a ≠ .connected) :
    r.registry.connected.get? a = none :=
  Dict.not_mem_keys_iff.mp fun hm => hs (Registry.state_eq_connected_iff.mpr hm)

theorem onDatagram_unusable (ht : r.registry.Tidy) (h : r.Unusable a raw) :
    r.onDatagram a raw = (r,[]) := by
  cases hopen : r.closing with
  | true => exact onDatagram_closed hopen raw
  | false =>
    cases h with
    | garbled h =>
      obtain ⟨e,he⟩ := Frame.garbled_iff.mp h
      simp [onDatagram,hopen,he]
    | @stray frame hf hr hd hl =>
      cases hk : frame.kind with
      | rcon => exact absurd hk hr
      | data => exact absurd hk hd
      | rcls => exact absurd hk hl
      | unkn | acon | adat | acls => simp [onDatagram,hopen,hf,hk]
    | data hf hk hs =>
      simp [onDatagram,hopen,hf,hk,onData_of_none (get?_connected_of_state hs)]
    | late hf hk hc hx hcl =>
      simp [onDatagram,hopen,hf,hk,onData_of_closing hc hx hcl]
    | farewell hf hk hp hc =>
      have hnone : r.registry.removePending a = none := by
        have hnp := Dict.not_mem_keys_iff.mp fun hm => hp (ht.state_eq_pending_iff.mpr hm)
        rw [Registry.removePending,hnp]
      simp [onDatagram,hopen,hf,hk,onClose,get?_connected_of_state hc,hnone]

theorem onDatagram_idle (h : r.Idle a raw) : r.onDatagram a raw = (r,[]) := by
  cases hopen : r.closing with
  | true => exact onDatagram_closed hopen raw
  | false =>
    cases h with
    | waits hf hk hs => rw [onDatagram_rcon hopen hf hk,onConnect,hs]
    | refused hf hk hs hr =>
      rw [onDatagram_rcon hopen hf hk,onConnect]
      cases hst : r.registry.state a with
      | connected => exact absurd hst hs
      | pending => rfl
      | unseen | closed => simp [hr]

theorem idle_of_unchanged {frame : Frame} (hs : r.Sound) (hf : Frame.receive raw = .ok frame)
    (hk : frame.kind = .rcon) (h : r.onConnect a frame.fragment = (r,[])) : r.Idle a raw := by
  cases hst : r.registry.state a with
  | pending => exact .waits hf hk hst
  | connected =>
    obtain ⟨p,hc⟩ := Option.isSome_iff_exists.mp
      (Dict.mem_keys_iff.mp (Registry.state_eq_connected_iff.mp hst))
    obtain ⟨x,hx,_⟩ := hs.registry.connected a p hc
    simp [onConnect,hst,hc,hx] at h
  | unseen | closed =>
    cases hr : r.settings.admits with
    | false => exact .refused hf hk (by simp [hst]) hr
    | true =>
      have hlen : (r.onConnect a frame.fragment).1.registry.peers.length =
          r.registry.peers.length + 1 := by
        simp [onConnect,hst,hr,Receiver.wakeAccepts,Registry.register]
      rw [h] at hlen
      exact absurd hlen (Nat.ne_of_lt (Nat.lt_succ_self _))

/-- Data without effect comes from nobody who is connected and has not asked to close. -/
theorem unusable_of_data_unchanged {frame : Frame} (hs : r.Sound)
    (hf : Frame.receive raw = .ok frame) (hk : frame.kind = .data)
    (h : r.onData a frame.fragment frame.payload = (r,[])) : r.Unusable a raw := by
  cases hc : r.registry.connected.get? a with
  | none =>
    refine .data hf hk fun hst => ?_
    exact Dict.not_mem_keys_iff.mpr hc (Registry.state_eq_connected_iff.mp hst)
  | some p =>
    obtain ⟨x,hx,_⟩ := hs.registry.connected a p hc
    cases hcl : x.closing with
    | true => exact .late hf hk hc hx hcl
    | false => simp [onData,hc,hx,hcl] at h

/-- A request to close without effect comes from nobody who waits or is connected. -/
theorem unusable_of_close_unchanged {frame : Frame} (ht : r.registry.Tidy)
    (hf : Frame.receive raw = .ok frame) (hk : frame.kind = .rcls)
    (h : r.onClose a = (r,[])) : r.Unusable a raw := by
  have hstate := onClose_state ht a a
  rw [h] at hstate
  refine .farewell hf hk (fun hp => ?_) fun hc => ?_
  · rw [hp,if_pos ⟨rfl,rfl⟩] at hstate
    cases hstate
  · obtain ⟨p,hat⟩ := Option.isSome_iff_exists.mp
      (Dict.mem_keys_iff.mp (Registry.state_eq_connected_iff.mp hc))
    simp [onClose,hat] at h

/-- Apart from the requests to connect that have no answer, the datagrams without effect on an open
receiver are those of no use. -/
theorem onDatagram_unchanged_iff (hs : r.Sound) (ht : r.registry.Tidy) :
    r.onDatagram a raw = (r,[]) ↔ r.closing = true ∨ r.Unusable a raw ∨ r.Idle a raw := by
  constructor
  · intro h
    cases hopen : r.closing with
    | true => exact .inl rfl
    | false =>
      refine .inr ?_
      cases hf : Frame.receive raw with
      | error e => exact .inl (.garbled (Frame.garbled_iff.mpr ⟨e,hf⟩))
      | ok frame =>
        unfold onDatagram at h
        simp only [hopen,hf,Bool.false_eq_true,if_false] at h
        cases hk : frame.kind with
        | rcon =>
          rw [hk] at h
          exact .inr (idle_of_unchanged hs hf hk h)
        | data =>
          rw [hk] at h
          exact .inl (unusable_of_data_unchanged hs hf hk h)
        | rcls =>
          rw [hk] at h
          exact .inl (unusable_of_close_unchanged ht hf hk h)
        | unkn | acon | adat | acls =>
          exact .inl (.stray hf (by simp [hk]) (by simp [hk]) (by simp [hk]))
  · rintro (hc | h | h)
    · exact onDatagram_closed hc raw
    · exact onDatagram_unusable ht h
    · exact onDatagram_idle h

/-- What a receiver makes of datagrams that are of no use, and which others have no effect. -/
structure Discards (settings : Settings) : Prop where
  react : ∀ ms a raw, (after settings ms).Unusable a raw →
    (after settings ms).react (.datagram a raw) = (after settings ms,[])
  step : ∀ es a raw, ((start settings).run es).1.Unusable a raw →
    ((start settings).run es).1.step (.datagram a raw) = (((start settings).run es).1,[])
  only : ∀ ms a raw, (after settings ms).react (.datagram a raw) = (after settings ms,[]) →
    (after settings ms).closing = true ∨ (after settings ms).Unusable a raw ∨
      (after settings ms).Idle a raw

theorem discards (settings : Settings) : Discards settings := by
  have hsound : ∀ ms, (after settings ms).Sound := (sound_start settings).play
  have htidy : ∀ ms, (after settings ms).registry.Tidy :=
    Tidy.play (tidy_start settings) (sound_start settings)
  refine ⟨fun ms a raw => onDatagram_unusable (htidy ms),fun es a raw h => ?_,
    fun ms a raw => (onDatagram_unchanged_iff (hsound ms) (htidy ms)).mp⟩
  have hasleep := asleep_run settings es
  have hreact : ((start settings).run es).1.react (.datagram a raw) =
      (((start settings).run es).1,[]) := by
    obtain ⟨ms,hms⟩ := run_eq_play (start settings) es
    rw [hms] at h ⊢
    exact onDatagram_unusable (htidy ms) h
  rw [Receiver.step,hreact]
  simp only [settle_of_asleep hasleep,List.append_nil]

end Receiver
namespace Sender

open Connection

variable {s t u : Sender} {c d : ConnRef} {x : Connection} {log : List Happening}
  {source : Address} {raw : Bytes}

/-- The datagrams from `source` that are of no use to a connection to which `log` has happened. -/
inductive Unusable (x : Connection) (log : List Happening) (source : Address) (raw : Bytes) : Prop
  | stranger (h : source ≠ x.remote)
  | garbled (h : Frame.Garbled raw)
  | stray {frame : Frame} (hf : Frame.receive raw = .ok frame) (hc : frame.kind ≠ .acon)
      (hd : frame.kind ≠ .adat) (hl : frame.kind ≠ .acls)
  | again {frame : Frame} (hf : Frame.receive raw = .ok frame) (hk : frame.kind = .acon)
      (ho : .opened ∈ log) (hfew : Few log)

theorem onAccept_of_established (he : x.outbox.established = true) (window : Int32) (now : Nat) :
    s.onAccept c x window now = (s,[]) := by
  rw [onAccept,Outbox.establish,if_pos he]

theorem onDatagram_unusable (hx : s.conns[c]? = some x)
    (ho : Few log → Handshaken x log) (h : Unusable x log source raw) (now : Nat) :
    s.onDatagram c source raw now = (s,[]) := by
  have hignored : (!x.listening || decide (source ≠ x.remote)) = true →
      s.onDatagram c source raw now = (s,[]) := by
    intro hi
    simp only [onDatagram,hx,hi,if_true]
  cases hi : (!x.listening || decide (source ≠ x.remote)) with
  | true => exact hignored hi
  | false =>
    cases h with
    | stranger h =>
      refine hignored ?_
      simp [h]
    | garbled h =>
      obtain ⟨e,he⟩ := Frame.garbled_iff.mp h
      simp only [onDatagram,hx,hi,he,Bool.false_eq_true,if_false]
    | @stray frame hf hc hd hl =>
      cases hk : frame.kind with
      | acon => exact absurd hk hc
      | adat => exact absurd hk hd
      | acls => exact absurd hk hl
      | unkn | rcon | data | rcls =>
        simp only [onDatagram,hx,hi,hf,hk,Bool.false_eq_true,if_false]
    | again hf hk hopened hfew =>
      simp only [onDatagram,hx,hi,hf,hk,Bool.false_eq_true,if_false]
      exact onAccept_of_established ((ho hfew).opened_iff.mp hopened) _ _

/-- Nothing but the connection `c` and the calls about it differs in `t` from what it is in `s`. -/
structure Beside (c : ConnRef) (s t : Sender) : Prop where
  settings : t.settings = s.settings
  table : t.table = s.table
  calls : t.calls = s.calls
  length : t.conns.length = s.conns.length
  conns : ∀ d, d ≠ c → t.conns[d]? = s.conns[d]?
  waiting : (t.waiting.filter fun w => w.call.conn ≠ c) = s.waiting.filter fun w => w.call.conn ≠ c

theorem Beside.refl (c : ConnRef) (s : Sender) : Beside c s s :=
  ⟨rfl,rfl,rfl,rfl,fun _ _ => rfl,rfl⟩

theorem Beside.trans (h : Beside c s t) (hu : Beside c t u) : Beside c s u where
  settings := hu.settings.trans h.settings
  table := hu.table.trans h.table
  calls := hu.calls.trans h.calls
  length := hu.length.trans h.length
  conns := fun d hd => (hu.conns d hd).trans (h.conns d hd)
  waiting := hu.waiting.trans h.waiting

theorem Beside.awake (h : Beside c s t)
    (hs : ∀ w ∈ s.waiting, w.woken = true → w.call.conn = c) :
    ∀ w ∈ t.waiting, w.woken = true → w.call.conn = c := by
  refine fun w hw hwoken => Decidable.byContradiction fun hne => ?_
  have hm : w ∈ t.waiting.filter fun w => w.call.conn ≠ c :=
    List.mem_filter.mpr ⟨hw,by simpa using hne⟩
  rw [h.waiting] at hm
  exact hne (hs w (List.mem_filter.mp hm).1 hwoken)

theorem beside_modify (s : Sender) (c : ConnRef) (f : Connection → Connection) :
    Beside c s (s.modify c f) where
  settings := rfl
  table := rfl
  calls := rfl
  length := List.length_modify _ _ _
  conns := fun _ hd => List.getElem?_modify_ne _ _ hd.symm
  waiting := rfl

theorem beside_wakeCalls (s : Sender) (c : ConnRef) : Beside c s (s.wakeCalls c) :=
  ⟨rfl,rfl,rfl,rfl,fun _ _ => rfl,Waiting.filter_wake s.waiting (fun call : Call => call.conn = c)
    (fun call => call.conn ≠ c) fun call hc => by simpa using hc⟩

theorem beside_onWake (s : Sender) (c : ConnRef) (now : Nat) : Beside c s (s.onWake c now).1 := by
  unfold onWake
  split
  · exact .refl c s
  · split
    · exact .refl c s
    · split
      · exact beside_modify s c _
      · exact beside_modify s c _

theorem beside_onDatagram (s : Sender) (c : ConnRef) (source : Address) (raw : Bytes) (now : Nat) :
    Beside c s (s.onDatagram c source raw now).1 := by
  unfold onDatagram
  split
  · exact .refl c s
  · split
    · exact .refl c s
    · split
      · exact .refl c s
      · split
        · unfold onAccept
          split
          · exact .refl c s
          · exact ((beside_modify s c _).trans (beside_wakeCalls _ c)).trans (beside_onWake _ c now)
        · simp only [onAcknowledge]
          split
          · exact (beside_modify s c _).trans (beside_wakeCalls _ c)
          · exact beside_modify s c _
        · exact (beside_modify s c _).trans (beside_wakeCalls _ c)
        · exact .refl c s

def Concerns (c : ConnRef) (s : Sender) (o : Output) : Prop :=
  (∃ frame, o = .send c frame) ∨
    ∃ k result call, o = .finish k result ∧ (k,call) ∈ s.held ∧ call.conn = c

theorem onWake_concerns {now : Nat} {o : Output} (h : o ∈ (s.onWake c now).2) :
    ∃ frame, o = .send c frame := by
  unfold onWake at h
  split at h
  · cases h
  · split at h
    · cases h
    · split at h
      · cases h
      · obtain ⟨frame,_,rfl⟩ := List.mem_map.mp h
        exact ⟨frame,rfl⟩

theorem onDatagram_concerns {now : Nat} {o : Output}
    (h : o ∈ (s.onDatagram c source raw now).2) : ∃ frame, o = .send c frame := by
  unfold onDatagram at h
  split at h
  · cases h
  · split at h
    · cases h
    · split at h
      · cases h
      · split at h
        · unfold onAccept at h
          split at h
          · cases h
          · exact onWake_concerns h
        · cases h
        · cases h
        · cases h

theorem beside_attempt (s : Sender) (call : Call) : Beside call.conn s (s.attempt call).2.2 := by
  cases hx : s.conns[call.conn]? with
  | none =>
    rw [attempt_of_none hx]
    exact .refl _ s
  | some x =>
    cases call with
    | connect d =>
      rw [attempt_connect_unchanged]
      exact .refl _ s
    | disconnect d =>
      have hx : s.conns[d]? = some x := hx
      rw [attempt_disconnect hx]
      split
      · exact .refl _ s
      · split
        · exact (beside_modify s d _).trans (beside_wakeCalls _ d)
        · exact .refl _ s
    | send d rest last =>
      have hx : s.conns[d]? = some x := hx
      by_cases hc : rest ≠ [] ∧ x.closed = true
      · rw [attempt_send_of_closed last hx hc]
        exact .refl _ s
      · rw [attempt_send last hx hc]
        exact beside_modify s d _

structure Stirred (c : ConnRef) (s t : Sender) : Prop extends Beside c s t where
  sound : t.Sound
  awake : ∀ w ∈ t.waiting, w.woken = true → w.call.conn = c
  about : ∀ e ∈ t.held, e.2.conn = c → ∃ call, (e.1,call) ∈ s.held ∧ call.conn = c

theorem poll_waiting {k : CallId} {call : Call} (hr : Waiting.ready? t.waiting k = some call) :
    (t.poll k).1.waiting = Waiting.settle (t.attempt call).2.2.waiting k (t.attempt call).1 := by
  simp only [poll,hr]
  split
  · rename_i ho
    rw [ho]
  · rename_i ho
    rw [ho]

theorem poll_concerns {k : CallId} {call : Call} (hr : Waiting.ready? t.waiting k = some call)
    {o : Output} (h : o ∈ (t.poll k).2) :
    (∃ frame, o = .send call.conn frame) ∨ ∃ result, o = .finish k result := by
  have hsent : ∀ o ∈ (t.attempt call).2.1, ∃ frame, o = .send call.conn frame := by
    intro o ho
    rcases attempt_sent t call with he | ⟨d,rfl,_,he⟩
    · rw [he] at ho
      cases ho
    · rw [he] at ho
      exact ⟨_,List.mem_singleton.mp ho⟩
  rw [poll_finished hr] at h
  unfold finished at h
  split at h
  · rename_i result _
    rcases List.mem_append.mp h with h | h
    · exact .inl (hsent o h)
    · exact .inr ⟨result,List.mem_singleton.mp h⟩
  · exact .inl (hsent o h)

theorem beside_poll (hs : t.Sound) {k : CallId} {call : Call}
    (hr : Waiting.ready? t.waiting k = some call) (hc : call.conn = c) :
    Beside c t (t.poll k).1 := by
  have hb : Beside c t (t.attempt call).2.2 := hc ▸ beside_attempt t call
  have hconns : (t.poll k).1.settings = (t.attempt call).2.2.settings ∧
      (t.poll k).1.table = (t.attempt call).2.2.table ∧
      (t.poll k).1.calls = (t.attempt call).2.2.calls ∧
      (t.poll k).1.conns = (t.attempt call).2.2.conns := by
    simp only [poll,hr]
    split <;> exact ⟨rfl,rfl,rfl,rfl⟩
  obtain ⟨h₁,h₂,h₃,h₄⟩ := hconns
  have hk : ∀ w ∈ (t.attempt call).2.2.waiting, w.id = k → decide (w.call.conn ≠ c) = false := by
    intro w hw hid
    have hm : (w.id,w.call) ∈ t.held := attempt_held t call ▸ mem_held hw
    have hsame := List.inj_on_of_nodup_map hs.nodup hm (mem_held_of_ready hr) hid
    rw [(Prod.mk.inj hsame).2,hc]
    simp
  exact {
    settings := h₁.trans hb.settings
    table := h₂.trans hb.table
    calls := h₃.trans hb.calls
    length := (congrArg _ h₄).trans hb.length
    conns := fun d hd => (by rw [h₄] : _ = (t.attempt call).2.2.conns[d]?).trans (hb.conns d hd)
    waiting := by
      rw [poll_waiting hr]
      exact (Waiting.filter_settle (fun call : Call => call.conn ≠ c) hk fun later ho => by
        simp [(attempt_wait ho).1,hc]).trans hb.waiting }

theorem Stirred.poll (h : Stirred c s t) (k : CallId) :
    Stirred c s (t.poll k).1 ∧ ∀ o ∈ (t.poll k).2, Concerns c s o := by
  cases hr : Waiting.ready? t.waiting k with
  | none =>
    rw [poll_none hr]
    exact ⟨h,fun o ho => by cases ho⟩
  | some call =>
    obtain ⟨w,hw,rfl,rfl,hwoken⟩ := Waiting.awake_of_ready? hr
    have hc := h.awake w hw hwoken
    have hb := beside_poll h.sound hr hc
    obtain ⟨first,hfirst,hfc⟩ := h.about _ (mem_held hw) hc
    refine ⟨⟨h.toBeside.trans hb,h.sound.poll _,fun v hv hvw => ?_,fun e he hec => ?_⟩,
      fun o ho => ?_⟩
    · exact hb.awake h.awake v hv hvw
    · rw [poll_held hr] at he
      split at he
      · obtain ⟨e',he',rfl⟩ := List.mem_map.mp he
        by_cases hid : e'.1 = w.id
        · rw [if_pos hid]
          exact ⟨first,hfirst,hfc⟩
        · rw [if_neg hid] at hec ⊢
          exact h.about e' he' hec
      · exact h.about e (List.mem_filter.mp he).1 hec
    · rcases poll_concerns hr ho with ⟨frame,rfl⟩ | ⟨result,rfl⟩
      · exact .inl ⟨frame,by rw [hc]⟩
      · exact .inr ⟨_,_,first,rfl,hfirst,hfc⟩

theorem Stirred.chain (h : Stirred c s t) (ks : List CallId) :
    Stirred c s (chain Sender.poll t ks).1 ∧
      ∀ o ∈ (ReliableTransport.chain Sender.poll t ks).2, Concerns c s o := by
  induction ks generalizing t with
  | nil => exact ⟨h,fun o ho => by cases ho⟩
  | cons k ks ih =>
    obtain ⟨hnow,hos⟩ := h.poll k
    obtain ⟨hlater,hmore⟩ := ih hnow
    exact ⟨hlater,fun o ho => (List.mem_append.mp ho).elim (hos o) (hmore o)⟩

theorem Stirred.rounds (h : Stirred c s t) (fuel : Nat) :
    Stirred c s (settleRounds fuel t).1 ∧ ∀ o ∈ (settleRounds fuel t).2, Concerns c s o := by
  induction fuel generalizing t with
  | zero => exact ⟨h,fun o ho => by cases ho⟩
  | succ fuel ih =>
    rw [settleRounds]
    split
    · exact ⟨h,fun o ho => by cases ho⟩
    · obtain ⟨hnow,hos⟩ := h.chain (Waiting.ready t.waiting)
      obtain ⟨hlater,hmore⟩ := ih hnow
      exact ⟨hlater,fun o ho => (List.mem_append.mp ho).elim (hos o) (hmore o)⟩

theorem step_beside (hs : s.Sound) (ha : s.Asleep) (c : ConnRef) (source : Address) (raw : Bytes)
    (now : Nat) :
    Beside c s (s.step (.datagram c source raw now)).1 ∧
      ∀ o ∈ (s.step (.datagram c source raw now)).2, Concerns c s o := by
  have hb := beside_onDatagram s c source raw now
  have hheld := onDatagram_held s c source raw now
  have hstirred : Stirred c s (s.onDatagram c source raw now).1 := {
    toBeside := hb
    sound := hs.react (.datagram c source raw now)
    awake := hb.awake fun w hw hwoken => absurd hwoken (by simp [ha w hw])
    about := fun e he hc => ⟨e.2,hheld ▸ he,hc⟩ }
  obtain ⟨hsettled,hmore⟩ := hstirred.rounds ((s.onDatagram c source raw now).1.waiting.length + 1)
  refine ⟨hsettled.toBeside,fun o ho => ?_⟩
  rcases List.mem_append.mp ho with ho | ho
  · exact .inl (onDatagram_concerns ho)
  · exact hmore o ho

/-- What a sender makes of datagrams that are of no use, and of all others. -/
structure Discards (settings : Settings) : Prop where
  react : ∀ ms c x source raw now, ((start settings).play ms).1.conns[c]? = some x →
    Unusable x (chronicle c (start settings) ms) source raw →
    ((start settings).play ms).1.react (.datagram c source raw now) =
      (((start settings).play ms).1,[])
  step : ∀ es c x source raw now, ((start settings).run es).1.conns[c]? = some x →
    Unusable x (annals settings es c) source raw →
    ((start settings).run es).1.step (.datagram c source raw now) =
      (((start settings).run es).1,[])
  beside : ∀ ms c source raw now,
    Beside c ((start settings).play ms).1
      (((start settings).play ms).1.react (.datagram c source raw now)).1 ∧
    ∀ o ∈ (((start settings).play ms).1.react (.datagram c source raw now)).2,
      ∃ frame, o = .send c frame
  step_beside : ∀ es c source raw now,
    Beside c ((start settings).run es).1
      (((start settings).run es).1.step (.datagram c source raw now)).1 ∧
    ∀ o ∈ (((start settings).run es).1.step (.datagram c source raw now)).2,
      Concerns c ((start settings).run es).1 o

theorem asleep_run (settings : Settings) (es : List Event) : ((start settings).run es).1.Asleep :=
  chain_induct (P := Asleep) (asleep_start settings) (fun t _ e => step_asleep t e) es

theorem discards (settings : Settings) : Discards settings := by
  have hplay : ∀ ms c x source raw now, ((start settings).play ms).1.conns[c]? = some x →
      Unusable x (chronicle c (start settings) ms) source raw →
      ((start settings).play ms).1.react (.datagram c source raw now) =
        (((start settings).play ms).1,[]) :=
    fun ms c x source raw now hx h =>
      onDatagram_unusable hx (fun hfew => handshaken_play settings ms c hfew x hx) h now
  refine ⟨hplay,?_,fun ms c source raw now => ?_,?_⟩
  · intro es c x source raw now hx h
    have hasleep := asleep_run settings es
    have hreact : ((start settings).run es).1.react (.datagram c source raw now) =
        (((start settings).run es).1,[]) := by
      rw [run_eq_play] at hx ⊢
      exact hplay _ c x source raw now hx h
    rw [Sender.step,hreact]
    simp only [settle,settleRounds_of_asleep hasleep,List.append_nil]
  · exact ⟨beside_onDatagram _ c source raw now,fun o ho => onDatagram_concerns ho⟩
  · intro es c source raw now
    have hsound : ((start settings).run es).1.Sound := by
      rw [run_eq_play]
      exact (sound_start settings).play _
    exact step_beside hsound (asleep_run settings es) c source raw now

end Sender

/-- A datagram that is of no use leaves a receiver and a sender as they are. -/
theorem discards_along_play (rs : Receiver.Settings) (ss : Sender.Settings) :
    Receiver.Discards rs ∧ Sender.Discards ss :=
  ⟨Receiver.discards rs,Sender.discards ss⟩

/-- A connected peer has asked to close and sends data once more; a remote accepts once more. -/
theorem discards_along_play_late :
    let a : Address := ⟨.localhost,0,4001⟩
    let b : Address := ⟨.localhost,0,4000⟩
    let rs : Receiver.Settings := ⟨64,.ofMillis 1500,.ofMillis 500,1,true⟩
    let ss : Sender.Settings := ⟨.ofMillis 1500,.ofMillis 500,.ofMillis 100⟩
    let data := Frame.encode ⟨.data,1,0,[97]⟩
    let accept := Frame.encode ⟨.acon,0,64,[]⟩
    let ms : List Receiver.Move := [.event (.datagram a (Frame.encode ⟨.rcon,0,0,[]⟩)),
      .event .acceptOne,.event (.datagram a (Frame.encode ⟨.rcls,0,0,[]⟩))]
    let ns : List Sender.Move := [.event (.connect a b none 0),.event (.datagram 0 b accept 1)]
    (Receiver.after rs ms).react (.datagram a data) = (Receiver.after rs ms,[]) ∧
      ((Sender.start ss).play ns).1.react (.datagram 0 b accept 2) =
        (((Sender.start ss).play ns).1,[]) := by
  intro a b rs ss data accept ms ns
  obtain ⟨hr,hs⟩ := discards_along_play rs ss
  let x : Peer := ((Receiver.after rs ms).registry.peers[0]?).getD (.start a 0 0 .zero)
  let y : Connection := (((Sender.start ss).play ns).1.conns[0]?).getD (.start 0 a b .zero 0)
  have hdata : Frame.receive data = .ok ⟨.data,1,0,[97]⟩ := by decide +kernel
  have haccept : Frame.receive accept = .ok ⟨.acon,0,64,[]⟩ := by decide +kernel
  have hfew : Connection.Few (Sender.chronicle 0 (Sender.start ss) ns) := by
    unfold Connection.Few
    decide +kernel
  have hconn : (Receiver.after rs ms).registry.connected.get? a = some 0 := by decide +kernel
  have hx : (Receiver.after rs ms).registry.peers[0]? = some x := by decide +kernel
  have hy : ((Sender.start ss).play ns).1.conns[0]? = some y := by decide +kernel
  exact ⟨hr.react ms a data (.late hdata rfl hconn hx (by decide +kernel)),
    hs.react ns 0 y b accept 2 hy (.again haccept rfl (by decide +kernel) hfew)⟩

end ReliableTransport
