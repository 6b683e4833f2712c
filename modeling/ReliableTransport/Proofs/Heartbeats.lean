import ReliableTransport.Proofs.Answers
import ReliableTransport.Proofs.Integrity
import ReliableTransport.Proofs.Standing

/-! What a receiver makes of keep-alives. It has no case for them: they carry a number of their own,
and a fragment is refused unless its number is the next one of its record. Which number that is
depends on the one the remote has proposed and on how many fragments were accepted since
(`Awaits.play`), and after enough of them, or at once for one proposal, it is the number of
keep-alives (`Heartbeats`). -/
namespace ReliableTransport

/-- The frame by which a sender shows that it is there. Nobody looks at its window. -/
abbrev heartbeat (window : Int32) : Frame := ⟨.data,Frame.keepAlive,window,[]⟩

namespace Inbox

variable {b : Inbox}

theorem offer_heartbeat (h : b.next ≠ Frame.keepAlive) : b.offer Frame.keepAlive [] = none :=
  if_neg fun hn => h hn.1.symm

theorem offer_heartbeat_of_next (h : b.next = Frame.keepAlive) :
    b.offer Frame.keepAlive [] = some { b with next := 0 } := by
  refine offer_eq_some_iff.mpr ⟨⟨h.symm,Nat.zero_le _⟩,?_⟩
  rw [List.append_nil,h]
  rfl

end Inbox

namespace Registry

variable {hears : Address → Frame → Prop} {capacity : Nat} {threshold : Duration}
  {shutting : Prop} {r s : Registry} {ds : List Deed} {p : PeerId} {x : Peer}

/-- A record waits for one fragment later for each payload that is taken into it. -/
theorem Acts.next_add (ha : Acts hears capacity threshold shutting r ds s) (h : r.Sound)
    (hx : r.peers[p]? = some x) :
    ∃ y, s.peers[p]? = some y ∧
      y.inbox.next = x.inbox.next + Int32.ofNat (takings p ds).length := by
  induction ha generalizing x with
  | done => exact ⟨x,hx,(Int32.add_zero _).symm⟩
  | next ha _ ih =>
    obtain ⟨y,hy,_,hp⟩ := ha.record h hx
    obtain ⟨z,hz,hn⟩ := ih (ha.sound h) hy
    refine ⟨z,hz,?_⟩
    rw [hn,takings_append,List.length_append,Int32.ofNat_add,← Int32.add_assoc]
    congr 1
    cases hp with
    | keep hn ht _ =>
      rw [hn,ht]
      exact (Int32.add_zero _).symm
    | take _ _ _ _ ho ht _ =>
      rw [(Inbox.offer_eq_some_iff.mp ho).2,ht]
      rfl

end Registry

namespace Receiver

variable {r : Receiver} {m : Move} {a : Address} {p : PeerId} {x : Peer}

def proposedBy (p : PeerId) (r : Receiver) (m : Move) : List Int32 :=
  match m with
  | .event (.datagram _ raw) =>
    match Frame.receive raw,r.registry.peers[p]?,(r.make m).1.registry.peers[p]? with
    | .ok frame, none, some _ => [frame.fragment]
    | _, _, _ => []
  | _ => []

def proposed (r : Receiver) (ms : List Move) (p : PeerId) : List Int32 := r.tally (proposedBy p) ms

theorem proposedBy_of_some (hx : r.registry.peers[p]? = some x) : r.proposedBy p m = [] := by
  unfold proposedBy
  rw [hx]
  split
  · split
    · contradiction
    · rfl
  · rfl

theorem proposedBy_of_none (hy : (r.make m).1.registry.peers[p]? = none) :
    r.proposedBy p m = [] := by
  unfold proposedBy
  rw [hy]
  split
  · split
    · contradiction
    · rfl
  · rfl

theorem acceptedBy_of_none (hx : r.registry.peers[p]? = none) : r.acceptedBy p m = [] := by
  unfold acceptedBy
  rw [hx]
  split
  · split
    · contradiction
    · rfl
  · rfl

theorem make_next (h : r.Sound) (m : Move) (hx : r.registry.peers[p]? = some x) :
    ∃ y, (r.make m).1.registry.peers[p]? = some y ∧
      y.inbox.next = x.inbox.next + Int32.ofNat (r.acceptedBy p m).length := by
  rw [← takings_deeds h p m]
  exact Registry.Acts.next_add (make_performs h m) h.registry hx

/-- A record that was not there before waits for the fragment after the one proposed. -/
theorem make_proposed (h : r.Sound) (m : Move) {y : Peer} (hx : r.registry.peers[p]? = none)
    (hy : (r.make m).1.registry.peers[p]? = some y) :
    ∃ initial, r.proposedBy p m = [initial] ∧ y.inbox.next = initial + 1 := by
  have hge := List.getElem?_eq_none_iff.mp hx
  have hlt := (List.getElem?_eq_some_iff.mp hy).1
  rcases (make_change h m).grows with hn | ⟨a,raw,frame,rfl,hf,_,_,_,hs⟩
  · omega
  · have hpeers : (r.make (.event (.datagram a raw))).1.registry.peers = r.registry.peers ++
        [.start a frame.fragment r.settings.capacity r.settings.threshold] := by
      rw [hs,Registry.peers_enqueue]
      rfl
    have hlast : p = r.registry.peers.length := by
      rw [hpeers,List.length_append] at hlt
      exact Nat.le_antisymm (Nat.le_of_lt_succ hlt) hge
    refine ⟨frame.fragment,?_,?_⟩
    · simp only [proposedBy,hf,hx,hy]
    · rw [hpeers,hlast,List.getElem?_concat_length] at hy
      rw [← Option.some.inj hy]
      rfl

/-- A record waits for the fragment after the one proposed for it and those accepted into it. -/
inductive Awaits (r : Receiver) (p : PeerId) : List Int32 → List Bytes → Prop
  | unmade (hx : r.registry.peers[p]? = none) : Awaits r p [] []
  | made {x : Peer} {initial : Int32} {payloads : List Bytes} (hx : r.registry.peers[p]? = some x)
      (hn : x.inbox.next = initial + 1 + Int32.ofNat payloads.length) :
      Awaits r p [initial] payloads

theorem Awaits.make {proposals : List Int32} {payloads : List Bytes}
    (hn : r.Awaits p proposals payloads) (h : r.Sound) (m : Move) :
    (r.make m).1.Awaits p (proposals ++ r.proposedBy p m) (payloads ++ r.acceptedBy p m) := by
  cases hn with
  | unmade hx =>
    rw [acceptedBy_of_none hx]
    cases hy : (r.make m).1.registry.peers[p]? with
    | none =>
      rw [proposedBy_of_none hy]
      exact .unmade hy
    | some y =>
      obtain ⟨initial,hp,hn⟩ := make_proposed h m hx hy
      rw [hp]
      exact .made hy (by rw [hn]; exact (Int32.add_zero _).symm)
  | made hx hn =>
    obtain ⟨y,hy,hnext⟩ := make_next h m hx
    rw [proposedBy_of_some hx,List.append_nil]
    refine .made hy ?_
    rw [hnext,hn,List.length_append,Int32.ofNat_add,Int32.add_assoc]

theorem Awaits.play {proposals : List Int32} {payloads : List Bytes}
    (hn : r.Awaits p proposals payloads) (h : r.Sound) (ms : List Move) :
    (r.play ms).1.Awaits p (proposals ++ r.proposed ms p) (payloads ++ r.accepted ms p) := by
  induction ms generalizing r proposals payloads with
  | nil => simpa [proposed,accepted,tally,play] using hn
  | cons m ms ih =>
    rw [proposed,accepted,tally,tally,← List.append_assoc,← List.append_assoc]
    exact ih (hn.make h m) (h.make m)

theorem Awaits.next {proposals : List Int32} {payloads : List Bytes}
    (hn : r.Awaits p proposals payloads) (hx : r.registry.peers[p]? = some x) :
    ∃ initial, proposals = [initial] ∧
      x.inbox.next = initial + 1 + Int32.ofNat payloads.length := by
  cases hn with
  | unmade hnone =>
    rw [hx] at hnone
    cases hnone
  | made hy hn =>
    obtain rfl := Option.some.inj (hx.symm.trans hy)
    exact ⟨_,rfl,hn⟩

/-- When the fragment after a proposal and `n` more has the number of keep-alives. -/
theorem eq_keepAlive_iff (initial : Int32) (n : Nat) :
    initial + 1 + Int32.ofNat n = Frame.keepAlive ↔
      (4294967296 : Int) ∣ initial.toInt + 2 + n := by
  have hlife : Frame.keepAlive.toInt = (-1 : Int).bmod 4294967296 := rfl
  have hgap : initial.toInt + 1 + n - -1 = initial.toInt + 2 + n := by omega
  rw [← Int32.toInt_inj,Signed.toInt_succ_add_ofNat,hlife,
    Int.bmod_eq_bmod_iff_bmod_sub_eq_zero,hgap]
  exact Int.dvd_iff_bmod_eq_zero.symm

theorem modify_congr {f g : Peer → Peer} (hx : r.registry.peers[p]? = some x) (hf : f x = g x) :
    r.modify p f = r.modify p g := by
  have hpeers : r.registry.peers.modify p f = r.registry.peers.modify p g := by
    refine List.ext_getElem? fun q => ?_
    rw [List.getElem?_modify,List.getElem?_modify]
    split
    · rename_i hq
      rw [← hq,hx]
      exact congrArg some hf
    · rfl
  simp only [modify,Registry.modify,hpeers]

/-- What a receiver does with a keep-alive from the address `a` of the connected record `p`, that
stands as `x`. -/
inductive Heeds (r : Receiver) (a : Address) (p : PeerId) (x : Peer) :
    Receiver × List Output → Prop
  /-- It is a sign of life and nothing else, and is answered with what was taken so far. -/
  | refreshed (ho : x.closing = false) (hn : x.inbox.next ≠ Frame.keepAlive) :
      Heeds r a p x (r.modify p fun peer => { peer with silence := peer.silence.reset },
        [.send a (reply .adat x.inbox.lastAccepted x.inbox.window)])
  | unheard (hc : x.closing = true) : Heeds r a p x (r,[])
  | mistaken (ho : x.closing = false) (hn : x.inbox.next = Frame.keepAlive) :
      Heeds r a p x
        ((r.modify p fun peer => { peer with
            inbox := { x.inbox with next := 0 }
            silence := peer.silence.reset }).wakeReads p,
          [.send a (reply .adat Frame.keepAlive x.inbox.window)])

theorem onData_heeds (hc : r.registry.connected.get? a = some p)
    (hx : r.registry.peers[p]? = some x) : r.Heeds a p x (r.onData a Frame.keepAlive []) := by
  cases hcl : x.closing with
  | true =>
    rw [onData_of_closing hc hx hcl]
    exact .unheard hcl
  | false =>
    by_cases hn : x.inbox.next = Frame.keepAlive
    · rw [onData_of_taken hc hx hcl (Inbox.offer_heartbeat_of_next hn)]
      exact .mistaken hcl hn
    · rw [onData_of_refused hc hx hcl (Inbox.offer_heartbeat hn)]
      rw [modify_congr (g := fun peer => { peer with silence := peer.silence.reset }) hx rfl]
      exact .refreshed hcl hn

theorem handings_sentBy (p : PeerId) (os : List Output) :
    Registry.handings p (sentBy os) = [] := by
  induction os with
  | nil => rfl
  | cons o os ih =>
    cases o with
    | send dest frame => exact ih
    | finish k result => exact ih

theorem returnedBy_datagram (raw : Bytes) : r.returnedBy p (.event (.datagram a raw)) = [] := by
  rw [returnedBy,Move.deeds,Event.deeds,Registry.handings_append,handings_sentBy,List.append_nil]
  unfold tookFrom
  split
  · rfl
  · split
    · split
      · rfl
      · rfl
    · rfl

theorem unreadOf_datagram (h : r.Sound) (p : PeerId) {raw : Bytes} {frame : Frame}
    (hf : Frame.receive raw = .ok frame) (hp : frame.payload = []) :
    (r.react (.datagram a raw)).1.registry.unreadOf p = r.registry.unreadOf p := by
  have hnone : (r.acceptedBy p (.event (.datagram a raw))).flatten = [] := by
    simp only [acceptedBy,hf]
    split
    · split
      · rfl
      · rename_i hframe _ _ _
        obtain rfl := Except.ok.inj hframe
        simp [hp]
    · rfl
  have hconserves := make_conserves h p (.event (.datagram a raw))
  rw [hnone,returnedBy_datagram,List.append_nil] at hconserves
  exact hconserves

/-- What a receiver makes of keep-alives after the moves `ms`. -/
structure Heartbeats (settings : Settings) (ms : List Move) : Prop where
  heeds : ∀ a p x raw window, Frame.receive raw = .ok (heartbeat window) →
    (after settings ms).registry.connected.get? a = some p →
    (after settings ms).registry.peers[p]? = some x →
    (after settings ms).Heeds a p x ((after settings ms).react (.datagram a raw))
  unread : ∀ a p raw window, Frame.receive raw = .ok (heartbeat window) →
    ((after settings ms).react (.datagram a raw)).1.registry.unreadOf p =
      (after settings ms).registry.unreadOf p
  /-- A record waits for the fragment after the one proposed for it and those accepted into it.
  That has the number of keep-alives exactly if these have gone around the circle of numbers. -/
  numbered : ∀ p x, (after settings ms).registry.peers[p]? = some x →
    ∃ initial, (start settings).proposed ms p = [initial] ∧
      x.inbox.next = initial + 1 + Int32.ofNat ((start settings).accepted ms p).length ∧
      (x.inbox.next = Frame.keepAlive ↔
        (4294967296 : Int) ∣ initial.toInt + 2 + ((start settings).accepted ms p).length)

/-- Whatever was proposed and accepted, a keep-alive is a sign of life and nothing else, unless the
numbers have come around to that of keep-alives: then it is taken for a fragment. -/
theorem heartbeats_along_play (settings : Settings) (ms : List Move) :
    Heartbeats settings ms := by
  have hsound := (sound_start settings).play ms
  have hbare := (bare_start settings).play (sound_start settings) ms
  refine ⟨fun a p x raw window hf hc hx => ?_,fun a p raw window hf => ?_,fun p x hx => ?_⟩
  · have hstate : (after settings ms).registry.state a = .connected :=
      Registry.state_eq_connected_iff.mpr (Dict.mem_keys_iff.mpr (by rw [hc]; rfl))
    have hopen := hbare.open_of_state (a := a) (by rw [hstate]; simp)
    rw [react,onDatagram_data hopen hf rfl]
    exact onData_heeds hc hx
  · exact unreadOf_datagram hsound p hf rfl
  · have hnumbered := Awaits.play (.unmade (p := p) rfl) (sound_start settings) ms
    obtain ⟨initial,hp,hn⟩ := hnumbered.next hx
    exact ⟨initial,hp,hn,by rw [hn]; exact eq_keepAlive_iff _ _⟩

def proposing (a : Address) : List Move :=
  [.event (.datagram a (Frame.encode ⟨.rcon,-2,0,[]⟩)),.event .acceptOne]

/-- The first keep-alive of a peer that has proposed the number before is taken for its first
fragment. The fragment itself, with its byte, is refused after that, and acknowledged. -/
theorem heartbeat_mistaken :
    let a : Address := ⟨.localhost,0,4001⟩
    let r := after ⟨64,.ofMillis 1500,.ofMillis 500,1,true⟩ (proposing a)
    let beat := r.react (.datagram a (Frame.encode (heartbeat 0)))
    let data := Event.datagram a (Frame.encode ⟨.data,-1,0,[97]⟩)
    r.registry.connected.get? a = some 0 ∧
      (r.registry.peers[0]?).map (fun x => x.inbox.next) = some Frame.keepAlive ∧
      (beat.1.registry.peers[0]?).map (fun x => x.inbox.next) = some 0 ∧
      beat.2 = [.send a (reply .adat (-1) 64)] ∧
      (r.react data).1.registry.unreadOf 0 = [97] ∧
      (beat.1.react data).1.registry.unreadOf 0 = [] ∧
      (beat.1.react data).2 = [.send a (reply .adat (-1) 64)] := by
  decide +kernel

end Receiver
end ReliableTransport
