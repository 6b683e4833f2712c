import ReliableTransport.Proofs.Newest

/-! How long a receiver bears with a peer. Of a record only this matters: its counter of silence,
what was asked of it and whether it is connected (`Vital`). A move changes that in few ways, each
with a sign that the diary of the record keeps: it was accepted, a frame came from its address, a
period of silence went by (`Care`, `make_cares`). -/
namespace ReliableTransport

/-- What matters for how long a record is connected. -/
structure Vital where
  silence : Silence
  closing : Bool
  closed : Bool
  checking : Bool
  seated : Bool
  deriving DecidableEq

inductive Sign
  | joined
  | heard (frame : Frame)
  | ticked
  deriving DecidableEq

namespace Vital

/-- The record of a peer that waits to be accepted. -/
structure Waits (v : Vital) : Prop where
  seated : v.seated = false
  checking : v.checking = false
  closed : v.closed = false

def join (v : Vital) : Vital :=
  { v with silence := v.silence.reset, checking := true, seated := true }

/-- One change of a record and the sign that goes with it, where a tick adds `period`. -/
inductive Care (period : Duration) : Vital → List Sign → Vital → Prop
  | rest {v : Vital} : Care period v [] v
  | join {v : Vital} (h : v.Waits) : Care period v [.joined] v.join
  | ignore {v : Vital} {frame : Frame} (hd : frame.kind = .data → v.seated = true → v.closing = true)
      (hl : frame.kind = .rcls → v.seated = false) : Care period v [.heard frame] v
  | heed {v : Vital} {frame : Frame} (hk : frame.kind = .data) (hs : v.seated = true)
      (hc : v.closing = false) :
      Care period v [.heard frame] { v with silence := v.silence.reset }
  | leave {v : Vital} {frame : Frame} (hk : frame.kind = .rcls) (hs : v.seated = true) :
      Care period v [.heard frame] { v with closing := true, silence := v.silence.expire }
  | pass {v : Vital} (hc : v.checking = false) : Care period v [.ticked] v
  | wait {v : Vital} (hc : v.checking = true) (he : (v.silence.tick period).expired = false) :
      Care period v [.ticked] { v with silence := v.silence.tick period }
  | lapse {v : Vital} (hc : v.checking = true) (he : (v.silence.tick period).expired = true) :
      Care period v [.ticked]
        { v with
          silence := v.silence.tick period
          closed := true
          checking := false
          seated := false }

def Joins (v w : Vital) : Prop := w = v ∨ (v.Waits ∧ w = v.join)

theorem Joins.trans {u v w : Vital} (h : Joins u v) (hs : Joins v w) : Joins u w := by
  rcases h with rfl | ⟨hw,rfl⟩
  · exact hs
  · rcases hs with rfl | ⟨hw',_⟩
    · exact .inr ⟨hw,rfl⟩
    · exact absurd hw'.seated (by simp [join])

def entered (before after : Bool) : List Sign := if !before && after then [.joined] else []

theorem Joins.care {v w : Vital} (h : Joins v w) (period : Duration) :
    Care period v (entered v.seated w.seated) w := by
  rcases h with rfl | ⟨hw,rfl⟩
  · simp only [entered,Bool.not_and_self,Bool.false_eq_true,if_false]
    exact .rest
  · simp only [entered,hw.seated,join,Bool.not_false,Bool.and_self,if_true]
    exact .join hw

end Vital

/-- What matters of a record that is the connected one of its address, or is not. -/
def Peer.vital (x : Peer) (seated : Bool) : Vital :=
  ⟨x.silence,x.closing,x.closed,x.checking,seated⟩

namespace Registry

open Vital (Joins)

def vital (r : Registry) (p : PeerId) : Option Vital :=
  (r.peers[p]?).map fun x => x.vital (r.connected.get? x.addr = some p)

def seated (r : Registry) (p : PeerId) : Bool := (r.vital p).any (·.seated)

variable {r s : Registry} {p q : PeerId} {x : Peer} {a : Address}

theorem vital_eq (hx : r.peers[p]? = some x) :
    r.vital p = some (x.vital (r.connected.get? x.addr = some p)) := by
  rw [vital,hx]
  rfl

theorem vital_congr (hp : s.peers[p]? = r.peers[p]?)
    (hc : ∀ x, r.peers[p]? = some x →
      (s.connected.get? x.addr = some p ↔ r.connected.get? x.addr = some p)) :
    s.vital p = r.vital p := by
  cases hx : r.peers[p]? with
  | none => rw [vital,vital,hp,hx]; rfl
  | some x =>
    rw [vital_eq hx,vital_eq (hp.trans hx)]
    simp only [hc x hx]

theorem vital_modify_ne (f : Peer → Peer) (h : q ≠ p) : (r.modify q f).vital p = r.vital p :=
  vital_congr (peers_modify_ne f h) fun _ _ => .rfl

theorem vital_modify_inbox (q : PeerId) (inbox : Inbox) :
    (r.modify q fun peer => { peer with inbox }).vital p = r.vital p := by
  by_cases h : q = p
  · subst h
    cases hx : r.peers[q]? with
    | none => simp [vital,Registry.modify,hx]
    | some x =>
      rw [vital_eq hx,vital_eq (peers_modify_self hx)]
      rfl
  · exact vital_modify_ne _ h

theorem vital_accept (h : r.Sound) (ht : r.Tidy) (ha : r.accept = some (q,s))
    {v : Vital} (hv : r.vital p = some v) :
    ∃ w, (s.modify q fun peer => { peer with checking := true }).vital p = some w ∧
      Joins v w := by
  obtain ⟨a,rest,hpend,rfl⟩ := accept_eq_some_iff.mp ha
  have hmem : (a,q) ∈ r.pending := by
    rw [hpend]
    exact List.mem_cons_self
  obtain ⟨x,hx,rfl,hopen,hch⟩ := h.pending a q hmem
  by_cases hq : q = p
  · subst hq
    have hout : r.connected.get? x.addr ≠ some q := h.apart _ _ q hmem
    rw [vital_eq hx] at hv
    obtain rfl := Option.some.inj hv
    have hat : (r.modify q fun peer => { peer with silence := peer.silence.reset }).peers[q]? =
        some { x with silence := x.silence.reset } := peers_modify_self hx
    refine ⟨_,vital_eq (peers_modify_self hat),.inr ⟨⟨decide_eq_false hout,hch,hopen⟩,?_⟩⟩
    simp [Peer.vital,Vital.join,Registry.modify,Dict.get?_insert]
  · refine ⟨v,?_,.inl rfl⟩
    rw [← hv,vital_modify_ne _ hq]
    refine vital_congr (peers_modify_ne _ hq) fun y hy => ?_
    simp only [Dict.get?_insert]
    split
    · rename_i hy'
      have hnone : r.connected.get? y.addr = none := by
        rw [hy',← Dict.not_mem_keys_iff]
        exact ht.pending_connected _ (List.mem_map.mpr ⟨_,hmem,rfl⟩)
      rw [hnone]
      simp [hq]
    · exact .rfl

theorem Greets.vital (hs : Greets r s) (h : r.Sound) (ht : r.Tidy) {v : Vital}
    (hv : r.vital p = some v) : ∃ w, s.vital p = some w ∧ Joins v w := by
  induction hs generalizing v with
  | none => exact ⟨v,hv,.inl rfl⟩
  | @next r s t q ha _ ih =>
    obtain ⟨u,hu,hjoin⟩ := vital_accept h ht ha hv
    have hsound : (s.modify q fun peer => { peer with checking := true }).Sound :=
      (h.accept ha).modify q (fun _ _ => ⟨rfl,rfl,fun _ hu => hu⟩) fun x a _ hm =>
        absurd hm (not_mem_pending_of_accept h ha a)
    obtain ⟨w,hw,hlater⟩ := ih hsound ((ht.accept ha).alike (alike_modify _ _ _)) hu
    exact ⟨w,hw,hjoin.trans hlater⟩

theorem vital_forgetDrained (r : Registry) (q : PeerId) :
    (r.forgetDrained q).vital p = r.vital p :=
  vital_congr (by rw [peers_forgetDrained]) fun _ _ => by rw [connected_forgetDrained]

end Registry

namespace Receiver

open Vital (Care Joins)
open Registry (Tidy Greets)

variable {r : Receiver} {p : PeerId}

def noted (r : Receiver) (p : PeerId) (a : Address) (frame : Frame) : List Sign :=
  if r.addr p = some a then [.heard frame] else []

def signs (p : PeerId) (r : Receiver) : Move → List Sign
  | .event (.datagram a raw) =>
    match Frame.receive raw with
    | .error _ => []
    | .ok frame => r.noted p a frame
  | .event (.tick q) => if q = p ∧ (r.addr p).isSome then [.ticked] else []
  | m => Vital.entered (r.registry.seated p) ((r.make m).1.registry.seated p)

def diary (p : PeerId) : Receiver → List Move → List Sign := tally (signs p)

def Cares (r : Receiver) (p : PeerId) (signs : List Sign) (s : Registry) : Prop :=
  ∀ v, r.registry.vital p = some v → ∃ w, s.vital p = some w ∧
    Care r.settings.period v signs w

theorem cares_of_eq {s : Registry} (h : s.vital p = r.registry.vital p) : r.Cares p [] s :=
  fun v hv => ⟨v,h.trans hv,.rest⟩

theorem attempt_joins (h : r.Sound) (ht : r.registry.Tidy) {call : Call}
    (hroom : ∀ q room, call = .read q room → 0 < room) {v : Vital}
    (hv : r.registry.vital p = some v) :
    ∃ w, (r.attempt call).2.2.registry.vital p = some w ∧ Joins v w := by
  cases call with
  | accept =>
    simp only [attempt]
    split
    · exact ⟨v,hv,.inl rfl⟩
    · split
      · exact ⟨v,hv,.inl rfl⟩
      · rename_i hn
        exact (greets_acceptNext hn .none).vital h.registry ht hv
  | read q room =>
    refine ⟨v,?_,.inl rfl⟩
    rw [← hv]
    cases hx : r.registry.peers[q]? with
    | none => simp only [attempt,hx]
    | some x =>
      rw [attempt_read hx (hroom q room rfl)]
      split
      · exact Registry.vital_modify_inbox q _
      · split
        · exact Registry.vital_forgetDrained r.registry q
        · split
          · rfl
          · rfl

theorem cares_of_joins {s : Registry}
    (h : ∀ v, r.registry.vital p = some v → ∃ w, s.vital p = some w ∧ Joins v w) :
    r.Cares p (Vital.entered (r.registry.seated p) (s.seated p)) s := by
  intro v hv
  obtain ⟨w,hw,hj⟩ := h v hv
  have hcare := hj.care r.settings.period
  refine ⟨w,hw,?_⟩
  simpa only [Registry.seated,hv,hw,Option.any_some] using hcare

theorem cares_attempt (h : r.Sound) (ht : r.registry.Tidy) {call : Call}
    (hroom : ∀ q room, call = .read q room → 0 < room) :
    r.Cares p (Vital.entered (r.registry.seated p) ((r.attempt call).2.2.registry.seated p))
      (r.attempt call).2.2.registry :=
  cares_of_joins fun _ => attempt_joins h ht hroom

theorem cares_same :
    r.Cares p (Vital.entered (r.registry.seated p) (r.registry.seated p)) r.registry :=
  cares_of_joins fun v hv => ⟨v,hv,.inl rfl⟩

theorem onConnect_vital (r : Receiver) (a : Address) (fragment : Int32) {v : Vital}
    (hv : r.registry.vital p = some v) :
    (r.onConnect a fragment).1.registry.vital p = r.registry.vital p := by
  have hlt : p < r.registry.peers.length := by
    obtain ⟨x,hx,_⟩ := Option.map_eq_some_iff.mp hv
    exact (List.getElem?_eq_some_iff.mp hx).1
  unfold onConnect
  split
  · split
    · rfl
    · rfl
  · rfl
  all_goals
    split
    · refine Registry.vital_congr ?_ fun x _ => ?_
      · show (Registry.enqueue _ _ _).peers[p]? = _
        rw [Registry.peers_enqueue]
        exact List.getElem?_append_left hlt
      · show (Registry.enqueue _ _ _).connected.get? _ = _ ↔ _
        rw [Registry.connected_enqueue]
        exact .rfl
    · rfl

theorem cares_ignore {s : Registry} {a : Address} {frame : Frame}
    (hs : s.vital p = r.registry.vital p)
    (hd : frame.kind = .data → r.registry.connected.get? a = some p →
      ∀ x, r.registry.peers[p]? = some x → x.closing = true)
    (hl : frame.kind = .rcls → r.registry.connected.get? a ≠ some p) :
    r.Cares p (r.noted p a frame) s := by
  intro v hv
  refine ⟨v,hs.trans hv,?_⟩
  unfold noted
  split
  · rename_i ha
    obtain ⟨x,hx,rfl⟩ := Option.map_eq_some_iff.mp ha
    rw [Registry.vital_eq hx] at hv
    obtain rfl := Option.some.inj hv
    exact .ignore (fun hk hs => hd hk (of_decide_eq_true hs) x hx)
      fun hk => decide_eq_false (hl hk)
  · exact .rest

theorem cares_modify (h : r.Sound) {a : Address} {q : PeerId} {x : Peer} {f : Peer → Peer}
    {frame : Frame} (hc : r.registry.connected.get? a = some q)
    (hx : r.registry.peers[q]? = some x) (hf : (f x).addr = x.addr)
    (hcare : Care r.settings.period (x.vital true) [.heard frame] ((f x).vital true)) :
    r.Cares p (r.noted p a frame) (r.registry.modify q f) := by
  by_cases hq : q = p
  · subst hq
    obtain ⟨y,hy,rfl,_⟩ := h.registry.connected a q hc
    rw [hx] at hy
    obtain rfl := Option.some.inj hy
    have haddr : r.addr q = some x.addr := by rw [addr,hx]; rfl
    intro v hv
    rw [Registry.vital_eq hx,decide_eq_true hc] at hv
    rw [noted,if_pos haddr,← Option.some.inj hv]
    have hseat : (r.registry.modify q f).connected.get? (f x).addr = some q := by rw [hf]; exact hc
    refine ⟨_,Registry.vital_eq (Registry.peers_modify_self hx),?_⟩
    rw [decide_eq_true hseat]
    exact hcare
  · have hne : r.registry.connected.get? a ≠ some p := by
      rw [hc]
      exact fun he => hq (Option.some.inj he)
    exact cares_ignore (Registry.vital_modify_ne f hq) (fun _ hs => absurd hs hne) fun _ => hne

theorem onData_cares (h : r.Sound) (a : Address) {frame : Frame} (hk : frame.kind = .data) :
    r.Cares p (r.noted p a frame)
      (r.onData a frame.fragment frame.payload).1.registry := by
  have hnl : frame.kind = .rcls → r.registry.connected.get? a ≠ some p := by simp [hk]
  cases hc : r.registry.connected.get? a with
  | none =>
    rw [onData_of_none hc]
    exact cares_ignore rfl (by simp [hc]) hnl
  | some q =>
    obtain ⟨x,hx,_⟩ := h.registry.connected a q hc
    cases hcl : x.closing with
    | true =>
      rw [onData_of_closing hc hx hcl]
      refine cares_ignore rfl (fun _ hp y hy => ?_) hnl
      rw [hc] at hp
      obtain rfl := Option.some.inj hp
      rw [hx] at hy
      rw [← Option.some.inj hy,hcl]
    | false =>
      cases ho : x.inbox.offer frame.fragment frame.payload with
      | none =>
        rw [onData_of_refused hc hx hcl ho]
        exact cares_modify h hc hx rfl (.heed hk rfl hcl)
      | some inbox =>
        rw [onData_of_taken hc hx hcl ho]
        exact cares_modify h hc hx rfl (.heed hk rfl hcl)

theorem onClose_cares (h : r.Sound) (a : Address) {frame : Frame} (hk : frame.kind = .rcls) :
    r.Cares p (r.noted p a frame) (r.onClose a).1.registry := by
  have hnd : frame.kind = .data → r.registry.connected.get? a = some p →
      ∀ x, r.registry.peers[p]? = some x → x.closing = true := by simp [hk]
  unfold onClose
  cases hc : r.registry.connected.get? a with
  | some q =>
    obtain ⟨x,hx,_⟩ := h.registry.connected a q hc
    exact cares_modify h hc hx rfl (.leave hk rfl)
  | none =>
    have hnl : frame.kind = .rcls → r.registry.connected.get? a ≠ some p := by simp [hc]
    cases hd : r.registry.removePending a with
    | none => exact cares_ignore rfl hnd hnl
    | some e =>
      obtain ⟨q,s⟩ := e
      refine cares_ignore (s := s) ?_ hnd hnl
      rw [Registry.removePending_eq_some hd]
      rfl

theorem onDatagram_cares (h : r.Sound) (hopen : r.closing = false) (a : Address) (raw : Bytes) :
    r.Cares p (r.signs p (.event (.datagram a raw))) (r.onDatagram a raw).1.registry := by
  simp only [onDatagram,signs,hopen,Bool.false_eq_true,if_false]
  cases hf : Frame.receive raw with
  | error e => exact cares_of_eq rfl
  | ok frame =>
    simp only
    split
    · rename_i hk
      intro v hv
      have hd : frame.kind ≠ .data := by simp [hk]
      have hl : frame.kind ≠ .rcls := by simp [hk]
      exact cares_ignore (onConnect_vital r a frame.fragment hv) (fun hk => absurd hk hd)
        (fun hk => absurd hk hl) v hv
    · rename_i hk
      exact onData_cares h a hk
    · rename_i hk
      exact onClose_cares h a hk
    · rename_i hd hl
      exact cares_ignore rfl (fun hk => absurd hk hd) fun hk => absurd hk hl

theorem vital_fell_ne {s : Registry} {q : PeerId} (a : Address) (h : q ≠ p) :
    (s.fell q a).vital p = s.vital p := by
  by_cases hc : s.connected.get? a = some q
  · rw [Registry.fell_of_connected hc,Registry.vital_modify_ne _ h]
    refine Registry.vital_congr rfl fun x _ => ?_
    show (s.connected.erase a).get? x.addr = some p ↔ _
    rw [Dict.get?_erase]
    split
    · rename_i hx
      rw [hx,hc]
      simp [h]
    · exact .rfl
  · rw [Registry.fell_of_not_connected hc,Registry.vital_modify_ne _ h]

theorem vital_fell {s : Registry} {x : Peer} (hx : s.peers[p]? = some x) :
    (s.fell p x.addr).vital p = some (x.teardown.vital false) := by
  by_cases hc : s.connected.get? x.addr = some p
  · rw [Registry.fell_of_connected hc]
    have hat : (s.retiring x.addr (s.relic p)).peers[p]? = some x := hx
    rw [Registry.vital_eq (Registry.peers_modify_self hat)]
    show some (x.teardown.vital (decide ((s.connected.erase x.addr).get? x.addr = some p))) = _
    rw [Dict.get?_erase,if_pos rfl]
    rfl
  · rw [Registry.fell_of_not_connected hc,Registry.vital_eq (Registry.peers_modify_self hx)]
    exact congrArg (fun b => some (x.teardown.vital b)) (decide_eq_false hc)

theorem onTick_cares (r : Receiver) (q : PeerId) :
    r.Cares p (r.signs p (.event (.tick q))) (r.onTick q).registry := by
  intro v hv
  obtain ⟨x,hx,rfl⟩ := Option.map_eq_some_iff.mp hv
  have haddr : (r.addr p).isSome = true := by simp [addr,hx]
  by_cases hq : q = p
  · subst hq
    simp only [signs,haddr,and_self,if_true,onTick,hx]
    cases hc : x.checking with
    | false =>
      simp only [Bool.false_eq_true,if_false]
      exact ⟨_,hv,.pass hc⟩
    | true =>
      simp only [if_true]
      let y : Peer := { x with silence := x.silence.tick r.settings.period }
      have hat : (r.registry.modify q fun peer =>
          { peer with silence := x.silence.tick r.settings.period }).peers[q]? = some y :=
        Registry.peers_modify_self hx
      cases he : (x.silence.tick r.settings.period).expired with
      | false => exact ⟨_,Registry.vital_eq hat,.wait hc he⟩
      | true => exact ⟨_,vital_fell (x := y) hat,.lapse hc he⟩
  · simp only [signs,hq,false_and,if_false]
    refine ⟨_,?_,.rest⟩
    rw [← hv]
    unfold onTick
    split
    · rfl
    · split
      · simp only
        split
        · show (Registry.fell _ _ _).vital p = _
          rw [vital_fell_ne _ hq]
          exact Registry.vital_modify_ne _ hq
        · exact Registry.vital_modify_ne _ hq
      · rfl

theorem Change.enlists {m : Move} {s : Registry} (hs : Change r m s) (h : r.Sound)
    (hnone : r.registry.vital p = none) {v : Vital} (hv : s.vital p = some v) :
    v = ⟨.start r.settings.threshold,false,false,false,false⟩ := by
  have hp : r.registry.peers[p]? = none := Option.map_eq_none_iff.mp hnone
  have hout : ∀ b, r.registry.connected.get? b ≠ some p := by
    intro b hb
    obtain ⟨y,hy,_⟩ := h.registry.connected b p hb
    rw [hp] at hy
    cases hy
  obtain ⟨x,hx,rfl⟩ := Option.map_eq_some_iff.mp hv
  rcases hs.grows with hn | ⟨a,raw,frame,_,_,_,_,_,rfl⟩
  · rw [List.getElem?_eq_none_iff,← hn] at hp
    have hlt := (List.getElem?_eq_some_iff.mp hx).1
    exact absurd hlt (Nat.not_lt_of_le hp)
  · rw [Registry.peers_enqueue] at hx
    rw [Registry.connected_enqueue]
    have hat : (r.registry.peers ++ [Peer.start a frame.fragment r.settings.capacity
        r.settings.threshold])[p]? = some x := hx
    rw [List.getElem?_append_right (List.getElem?_eq_none_iff.mp hp)] at hat
    obtain rfl := List.mem_singleton.mp (List.mem_of_getElem? hat)
    exact congrArg (Peer.vital _) (decide_eq_false (hout _))

theorem signs_of_none {m : Move} (hnone : r.registry.vital p = none)
    (hs : (r.make m).1.registry.seated p = false) : r.signs p m = [] := by
  have haddr : r.addr p = none := by rw [addr,Option.map_eq_none_iff.mp hnone]; rfl
  unfold signs
  split
  · split
    · rfl
    · rw [noted,haddr,if_neg (by simp)]
  · rw [haddr,if_neg (by simp)]
  · rw [hs,Vital.entered,Bool.and_false]
    rfl

/-- What a move does to a record, as long as the receiver is not closed. -/
theorem make_cares (h : r.Sound) (ht : r.registry.Tidy) {m : Move}
    (hopen : (r.make m).1.closing = false) (p : PeerId) :
    r.Cares p (r.signs p m) (r.make m).1.registry := by
  cases m with
  | retry k =>
    simp only [signs,make]
    cases hr : Waiting.ready? r.waiting k with
    | none =>
      rw [poll_none hr]
      exact cares_same
    | some call =>
      rw [poll_registry hr]
      exact cares_attempt h ht fun _ _ => room_of_ready h hr
  | event e =>
    cases e with
    | datagram a raw =>
      have hstays := make_closing (r := r) (m := .event (.datagram a raw)) (by simp)
      exact onDatagram_cares h (hstays.symm.trans hopen) a raw
    | tick q => exact onTick_cares r q
    | close =>
      have hclosed : (r.make (.event .close)).1.closing = true := shut_closing r
      rw [hopen] at hclosed
      cases hclosed
    | acceptOne =>
      simp only [signs,make,react,enter_registry]
      exact cares_attempt h ht fun _ _ hc => by cases hc
    | acceptAll =>
      simp only [signs,make,react]
      split
      · exact cares_same
      · exact cares_of_joins fun _ => (greets_acceptMany _ r).vital h.registry ht
    | read a room =>
      simp only [signs,make,react]
      split
      · exact cares_same
      · split
        · exact cares_same
        · exact cares_same
        · split
          · exact cares_same
          · simp only [enter_registry]
            exact cares_attempt h ht fun _ _ hc => by
              cases hc
              omega

end Receiver
end ReliableTransport
