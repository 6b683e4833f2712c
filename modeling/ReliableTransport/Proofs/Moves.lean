import ReliableTransport.Proofs.Receptions

/-! The moves of a receiver: something happens to it, or one woken call tries again. Events with
all that follows from them are plays of moves (`run_eq_play`), so that what holds along every play
holds along every run. `Change` says once what one move can do to the places where records stand. -/
namespace ReliableTransport

namespace Registry

structure Alike (r s : Registry) : Prop where
  pending : s.pending = r.pending
  connected : s.connected = r.connected
  retired : s.retired = r.retired
  retiredOrder : s.retiredOrder = r.retiredOrder
  retiredCapacity : s.retiredCapacity = r.retiredCapacity

theorem Alike.refl (r : Registry) : r.Alike r := ⟨rfl,rfl,rfl,rfl,rfl⟩

theorem alike_modify (r : Registry) (p : PeerId) (f : Peer → Peer) : r.Alike (r.modify p f) :=
  ⟨rfl,rfl,rfl,rfl,rfl⟩

def retiring (r : Registry) (a : Address) (v : Retired) : Registry :=
  evict { r with
    connected := r.connected.erase a
    retired := r.retired.insert a v
    retiredOrder := r.retiredOrder ++ [a] }

theorem retire_eq_retiring {r : Registry} {a : Address} {p : PeerId}
    (h : r.connected.get? a = some p) : r.retire a = some (p,r.retiring a (r.relic p)) := by
  rw [retire,h]
  rfl

theorem fell_of_connected {r : Registry} {a : Address} {p : PeerId}
    (h : r.connected.get? a = some p) :
    r.fell p a = (r.retiring a (r.relic p)).modify p .teardown := by
  rw [fell,if_pos h,retire_eq_retiring h]

theorem fell_of_not_connected {r : Registry} {a : Address} {p : PeerId}
    (h : ¬ r.connected.get? a = some p) : r.fell p a = r.modify p .teardown := by
  rw [fell,if_neg h]

inductive Greets : Registry → Registry → Prop
  | none {r : Registry} : Greets r r
  | next {r s t : Registry} {p : PeerId} (ha : r.accept = some (p,s))
      (ht : Greets (s.modify p fun peer => { peer with checking := true }) t) : Greets r t

theorem Greets.places {r s : Registry} (h : Greets r s) :
    s.retired = r.retired ∧ s.retiredOrder = r.retiredOrder ∧
      s.retiredCapacity = r.retiredCapacity ∧ ∀ a ∈ r.connected.keys, a ∈ s.connected.keys := by
  induction h with
  | none => exact ⟨rfl,rfl,rfl,fun _ ha => ha⟩
  | next ha _ ih =>
    obtain ⟨b,rest,_,rfl⟩ := accept_eq_some_iff.mp ha
    obtain ⟨hr,ho,hcap,hc⟩ := ih
    exact ⟨hr,ho,hcap,fun a ha => hc a (Dict.mem_keys_insert.mpr (.inr ha))⟩

end Registry

namespace Receiver

abbrev Move := PartyMove Event

def make (r : Receiver) : Move → Receiver × List Output
  | .event e => r.react e
  | .retry k => r.poll k

def play : Receiver → List Move → Receiver × List Output := chain make

variable {r : Receiver}

theorem step_eq_play (r : Receiver) (e : Event) : ∃ ms, r.step e = r.play ms := by
  refine ⟨.event e :: (Waiting.ready (r.react e).1.waiting).map .retry,?_⟩
  rw [play,chain_cons,chain_map]
  rfl

theorem run_eq_play (r : Receiver) (es : List Event) : ∃ ms, r.run es = r.play ms :=
  chain_refine step_eq_play r es

def tally {α : Type} (f : Receiver → Move → List α) : Receiver → List Move → List α
  | _, [] => []
  | r, m :: ms => f r m ++ tally f (r.make m).1 ms

theorem Sound.make (h : r.Sound) (m : Move) : (r.make m).1.Sound := by
  cases m with
  | event e => exact h.react e
  | retry k => exact h.poll k

theorem Sound.play (h : r.Sound) (ms : List Move) : (r.play ms).1.Sound :=
  chain_induct h (fun _ ht m => ht.make m) ms

theorem make_closing {m : Move} (hm : m ≠ .event .close) :
    (r.make m).1.closing = r.closing := by
  cases m with
  | event e => exact (react_alike r fun he => hm (by rw [he])).2
  | retry k => exact (poll_alike r k).2

def Move.hears : Move → Address → Frame → Prop
  | .event e => Hears e
  | .retry _ => fun _ _ => False

/-- What a receiver does in a move that takes it to `t` with `os` coming out. -/
def Move.deeds (r t : Receiver) (os : List Output) : Move → List Registry.Deed
  | .event e => e.deeds r t os
  | .retry k => r.polled k os

theorem make_acts (h : r.Sound) (m : Move) {shutting : Prop}
    (hs : (r.make m).1.closing = true → shutting) :
    Performs m.hears shutting r (r.make m).1 (m.deeds r (r.make m).1 (r.make m).2) := by
  cases m with
  | event e => exact react_acts h e hs
  | retry k => exact poll_acts h k fun hc => hs ((poll_alike r k).2.trans hc)

theorem make_performs (h : r.Sound) (m : Move) :
    Performs m.hears True r (r.make m).1 (m.deeds r (r.make m).1 (r.make m).2) :=
  make_acts h m fun _ => trivial

open Registry (Greets)

/-- The ways in which a move can change where the records of a receiver stand. -/
inductive Change (r : Receiver) (m : Move) (s : Registry) : Prop
  | rest (hs : r.registry.Alike s) (hn : s.peers.length = r.registry.peers.length)
  | enlist {a : Address} {raw : Bytes} {frame : Frame} (hm : m = .event (.datagram a raw))
      (hf : Frame.receive raw = .ok frame) (hk : frame.kind = .rcon)
      (hc : r.registry.connected.get? a = none) (hp : r.registry.pending.get? a = none)
      (hs : s = (r.registry.register
        (.start a frame.fragment r.settings.capacity r.settings.threshold)).2.enqueue a
          r.registry.peers.length)
  | greet (hs : Greets r.registry s)
  | drop {a : Address} {p : PeerId} (hs : r.registry.removePending a = some (p,s))
  | fall {p : PeerId} {x y : Peer} (hm : m = .event (.tick p))
      (hx : r.registry.peers[p]? = some x) (hc : r.registry.connected.get? x.addr = some p)
      (hs : (r.registry.retiring x.addr (r.registry.relic p)).Alike s)
      (hn : s.peers.length = r.registry.peers.length) (hy : s.peers[p]? = some y)
      (hcl : y.closed = true) (hi : y.inbox = x.inbox)
  | finish {p : PeerId} {x : Peer} (hx : r.registry.peers[p]? = some x) (hcl : x.closed = true)
      (hu : x.inbox.unread = []) (hs : s = r.registry.forgetDrained p)
  | shut (hm : m = .event .close) (hp : s.pending = []) (hc : s.connected = [])
      (hr : s.retired = []) (ho : s.retiredOrder = [])
      (hcap : s.retiredCapacity = r.registry.retiredCapacity)
      (hn : s.peers.length = r.registry.peers.length)

theorem Change.same {m : Move} : Change r m r.registry := .rest (.refl _) rfl

theorem Change.modify {m : Move} (p : PeerId) (f : Peer → Peer) :
    Change r m (r.registry.modify p f) :=
  .rest (Registry.alike_modify _ p f) (Registry.length_modify _ p f)

theorem greets_acceptNext {a : Address} {frame : Frame} {t : Receiver}
    (h : r.acceptNext = some (a,frame,t)) {s : Registry} (hs : Greets t.registry s) :
    Greets r.registry s := by
  obtain ⟨p,u,x,ha,_,_,_,rfl⟩ := acceptNext_eq_some h
  exact .next ha hs

theorem greets_acceptMany (fuel : Nat) (r : Receiver) :
    Greets r.registry (acceptMany fuel r).2.registry := by
  induction fuel generalizing r with
  | zero => exact .none
  | succ fuel ih =>
    unfold acceptMany
    cases h : r.acceptNext with
    | none => exact .none
    | some e => exact greets_acceptNext h (ih _)

theorem attempt_change {m : Move} {call : Call}
    (hroom : ∀ p room, call = .read p room → 0 < room) :
    Change r m (r.attempt call).2.2.registry := by
  cases call with
  | accept =>
    simp only [attempt]
    split
    · exact .same
    · split
      · exact .same
      · rename_i h
        exact .greet (greets_acceptNext h .none)
  | read p room =>
    cases hx : r.registry.peers[p]? with
    | none =>
      simp only [attempt,hx]
      exact .same
    | some x =>
      rw [attempt_read hx (hroom p room rfl)]
      split
      · exact .modify _ _
      · rename_i hu
        split
        · rename_i hcl
          exact .finish hx hcl (Decidable.not_not.mp hu) rfl
        · split
          · exact .same
          · exact .same

theorem onConnect_change {a : Address} {raw : Bytes} {frame : Frame}
    (hf : Frame.receive raw = .ok frame) (hk : frame.kind = .rcon) :
    Change r (.event (.datagram a raw)) (r.onConnect a frame.fragment).1.registry := by
  unfold onConnect
  split
  · split
    · exact .same
    · exact .same
  · exact .same
  all_goals
    rename_i hst
    have hnone : r.registry.connected.get? a = none ∧ r.registry.pending.get? a = none := by
      unfold Registry.state at hst
      split at hst
      · cases hst
      · split at hst
        · cases hst
        · rename_i h₁ h₂
          exact ⟨by simpa using h₁,by simpa using h₂⟩
    split
    · exact .enlist rfl hf hk hnone.1 hnone.2 rfl
    · exact .same

theorem onData_change {m : Move} (a : Address) (fragment : Int32) (payload : Bytes) :
    Change r m (r.onData a fragment payload).1.registry := by
  unfold onData
  split
  · exact .same
  · split
    · exact .same
    · split
      · exact .same
      · simp only
        split
        · exact .modify _ _
        · exact .modify _ _

theorem onClose_change {m : Move} (a : Address) : Change r m (r.onClose a).1.registry := by
  unfold onClose
  split
  · exact .modify _ _
  · split
    · rename_i hd
      exact .drop hd
    · exact .same

theorem onDatagram_change (a : Address) (raw : Bytes) :
    Change r (.event (.datagram a raw)) (r.onDatagram a raw).1.registry := by
  unfold onDatagram
  split
  · exact .same
  · split
    · exact .same
    · rename_i frame hf
      split
      · rename_i hk
        exact onConnect_change hf hk
      · exact onData_change a _ _
      · exact onClose_change a
      · exact .same

theorem onTick_change (r : Receiver) (p : PeerId) :
    Change r (.event (.tick p)) (r.onTick p).registry := by
  unfold onTick
  split
  · exact .same
  · rename_i x hx
    split
    · simp only
      split
      · let silence := x.silence.tick r.settings.period
        let silent := r.registry.modify p fun peer => { peer with silence }
        have hat : silent.peers[p]? = some { x with silence } := Registry.peers_modify_self hx
        show Change r _ (silent.fell p x.addr)
        by_cases hc : r.registry.connected.get? x.addr = some p
        · have hrelic : silent.relic p = r.registry.relic p := by
            simp only [Registry.relic,hat,hx,Option.any_some]
          rw [Registry.fell_of_connected (r := silent) hc,hrelic]
          refine .fall rfl hx hc ⟨rfl,rfl,rfl,rfl,rfl⟩ ?_ (Registry.peers_modify_self hat) rfl rfl
          rw [Registry.length_modify]
          exact Registry.length_modify _ _ _
        · rw [Registry.fell_of_not_connected (r := silent) hc]
          refine .rest ⟨rfl,rfl,rfl,rfl,rfl⟩ ?_
          rw [Registry.length_modify,Registry.length_modify]
      · exact .modify _ _
    · exact .same

theorem shut_change (r : Receiver) : Change r (.event .close) r.shut.registry := by
  cases hc : r.closing with
  | true =>
    have he : r.shut = r := by
      unfold Receiver.shut
      rw [if_pos hc]
    rw [he]
    exact .same
  | false =>
    rw [shut_registry hc]
    have hplaces : ∀ (ps : List PeerId) (s : Registry),
        s.Alike (ps.foldl (fun r p => r.modify p .teardown) s) := by
      intro ps
      induction ps with
      | nil => exact fun s => .refl s
      | cons p ps ih =>
        intro s
        obtain ⟨h₁,h₂,h₃,h₄,h₅⟩ := ih (s.modify p .teardown)
        exact ⟨h₁,h₂,h₃,h₄,h₅⟩
    obtain ⟨hp,hconn,hr,ho,hcap⟩ := hplaces r.registry.drain.1.2 r.registry.drain.2
    exact .shut rfl hp hconn hr ho hcap (Registry.length_foldl _ _ _)

theorem react_change (r : Receiver) (e : Event) :
    Change r (.event e) (r.react e).1.registry := by
  cases e with
  | datagram a raw => exact onDatagram_change a raw
  | acceptOne =>
    simp only [react,enter_registry]
    exact attempt_change fun _ _ hc => by cases hc
  | acceptAll =>
    simp only [react]
    split
    · exact .same
    · exact .greet (greets_acceptMany _ r)
  | read a room =>
    simp only [react]
    split
    · exact .same
    · split
      · exact .same
      · exact .same
      · split
        · exact .same
        · rw [enter_registry]
          exact attempt_change fun _ _ hc => by
            cases hc
            omega
  | tick p => exact onTick_change r p
  | close => exact shut_change r

theorem make_change (h : r.Sound) (m : Move) : Change r m (r.make m).1.registry := by
  cases m with
  | event e => exact react_change r e
  | retry k =>
    show Change r _ (r.poll k).1.registry
    cases hr : Waiting.ready? r.waiting k with
    | none =>
      rw [poll_none hr]
      exact .same
    | some call =>
      rw [poll_registry hr]
      exact attempt_change fun _ _ => room_of_ready h hr

end Receiver
end ReliableTransport
