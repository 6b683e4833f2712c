import ReliableTransport.Proofs.Standing

/-! In which order peers are accepted. A request that makes a record lists it, behind all records
made before (`enlisted`); a record whose address asks to close while it waits is left out
(`withdrawn`). Calls to accept take the others one by one from the front of the list, and the records
that wait are those not taken yet, in the order of the list (`arrivals_along_play`). -/
namespace ReliableTransport

namespace Registry

variable {r : Registry} {a : Address} {p : PeerId}

theorem Tidy.pending_eraseP (ht : r.Tidy) (h : r.Sound) (hp : r.pending.get? a = some p) :
    (r.pending.eraseP fun e => e.1 = a) = r.pending.filter fun e => e.2 ∉ [p] := by
  have hsame : ∀ e ∈ r.pending, (e.1 ≠ a ↔ e.2 ∉ [p]) := by
    rintro ⟨b,q⟩ he
    rw [List.mem_singleton]
    refine not_congr ⟨?_,?_⟩
    · rintro rfl
      rw [Dict.get?_of_mem ht.pending he] at hp
      exact Option.some.inj hp
    · rintro rfl
      obtain ⟨x,hx,hxa,_⟩ := h.pending b q he
      obtain ⟨y,hy,hya,_⟩ := h.pending a q (Dict.mem_of_get? hp)
      rw [hx] at hy
      rw [← hxa,← hya,Option.some.inj hy]
  rw [Dict.eraseP_eq_erase ht.pending]
  exact List.filter_congr fun e he => decide_eq_decide.mpr (hsame e he)

def inboxOf (r : Registry) (p : PeerId) : Option Inbox := (r.peers[p]?).map Peer.inbox

/-- From `r` on to `s` those that wait longest, `taken`, are connected, and no inbox changes. -/
structure Seats (r s : Registry) (taken : List (Address × PeerId)) : Prop where
  pending : r.pending = taken ++ s.pending
  connected : ∀ a p, s.connected.get? a = some p ↔
    r.connected.get? a = some p ∨ (a,p) ∈ taken
  inbox : ∀ p, s.inboxOf p = r.inboxOf p

theorem Seats.refl (r : Registry) : Seats r r [] :=
  ⟨rfl,fun _ _ => by simp,fun _ => rfl⟩

theorem Seats.trans {s t : Registry} {taken more : List (Address × PeerId)} (h : Seats r s taken)
    (hs : Seats s t more) : Seats r t (taken ++ more) where
  pending := by rw [h.pending,hs.pending,List.append_assoc]
  connected := fun a p => by rw [hs.connected,h.connected,List.mem_append,or_assoc]
  inbox := fun p => (hs.inbox p).trans (h.inbox p)

theorem inbox_modify (r : Registry) (p q : PeerId) {f : Peer → Peer}
    (hf : ∀ x, (f x).inbox = x.inbox) :
    (r.modify p f).inboxOf q = r.inboxOf q := by
  unfold inboxOf
  by_cases h : p = q
  · subst h
    cases hx : r.peers[p]? with
    | none => simp [Registry.modify,hx]
    | some x => rw [peers_modify_self hx,Option.map_some,Option.map_some,hf]
  · rw [peers_modify_ne f h]

end Registry

namespace Receiver

open Registry (Tidy Seats)

variable {r : Receiver} {m : Move} {a : Address} {p : PeerId}

def Move.source (kind : Kind) : Move → Option Address
  | .event (.datagram a raw) =>
    match Frame.receive raw with
    | .ok frame => if frame.kind = kind then some a else none
    | .error _ => none
  | _ => none

def enlistedBy (r : Receiver) (m : Move) : List (Address × PeerId) :=
  match m.source .rcon with
  | some a =>
    if (r.make m).1.registry.peers.length = r.registry.peers.length then []
    else [(a,r.registry.peers.length)]
  | none => []

def withdrawnBy (r : Receiver) (m : Move) : List PeerId :=
  ((m.source .rcls).bind r.registry.pending.get?).toList

/-- The records made in moves in a row, each under its address. -/
def enlisted (r : Receiver) (ms : List Move) : List (Address × PeerId) := r.tally enlistedBy ms

/-- The records whose addresses ask to close while they wait, in moves in a row. -/
def withdrawn (r : Receiver) (ms : List Move) : List PeerId := r.tally withdrawnBy ms

def Output.welcomes : Output → List Address
  | .finish _ (.accepted a) => [a]
  | .finish _ (.acceptedAll as) => as
  | _ => []

/-- The addresses that callers are told were accepted, in the order in which they are told. -/
def welcomed (os : List Output) : List Address := os.flatMap Output.welcomes

theorem welcomed_append (os ps : List Output) :
    welcomed (os ++ ps) = welcomed os ++ welcomed ps := List.flatMap_append

theorem welcomed_eq_nil {os : List Output} (h : ∀ k result, .finish k result ∉ os) :
    welcomed os = [] := by
  refine List.flatMap_eq_nil_iff.mpr fun o ho => ?_
  cases o with
  | send dest frame => rfl
  | finish k result => exact absurd ho (h k result)

theorem welcomed_map_send (es : List (Address × Frame)) :
    welcomed (es.map fun e => .send e.1 e.2) = [] :=
  welcomed_eq_nil fun k result hm => by simp at hm

theorem enlistedBy_of_same (h : (r.make m).1.registry.peers.length = r.registry.peers.length) :
    r.enlistedBy m = [] := by
  unfold enlistedBy
  split
  · rw [if_pos h]
  · rfl

theorem mem_enlistedBy {e : Address × PeerId} (he : e ∈ r.enlistedBy m) :
    e.2 = r.registry.peers.length := by
  unfold enlistedBy at he
  split at he
  · split at he
    · cases he
    · rw [List.mem_singleton.mp he]
  · cases he

theorem mem_withdrawnBy (hp : p ∈ r.withdrawnBy m) : ∃ a, (a,p) ∈ r.registry.pending := by
  obtain ⟨a,_,ha⟩ := Option.bind_eq_some_iff.mp (Option.mem_toList.mp hp)
  exact ⟨a,Dict.mem_of_get? ha⟩

/-- From `r` on to the records `s` the peers that have waited longest are accepted, however many, and
callers told so; `gone` wait no more either, and `new` wait behind all others. -/
def Queues (r : Receiver) (gone : List PeerId) (new : List (Address × PeerId)) (s : Registry)
    (os : List Output) : Prop :=
  ∃ taken rest, r.registry.pending.filter (fun e => e.2 ∉ gone) = taken ++ rest ∧
    s.pending = rest ++ new ∧ welcomed os = taken.map (·.1)

theorem filter_not_mem_nil (d : Dict Address PeerId) :
    (d.filter fun e => e.2 ∉ ([] : List PeerId)) = d :=
  List.filter_eq_self.mpr fun _ _ => decide_eq_true List.not_mem_nil

theorem queues_of_taken (taken : List (Address × PeerId)) {s : Registry} {os : List Output}
    (h : r.registry.pending = taken ++ s.pending) (ho : welcomed os = taken.map (·.1)) :
    r.Queues [] [] s os :=
  ⟨taken,s.pending,(filter_not_mem_nil _).trans h,(List.append_nil _).symm,ho⟩

theorem queues_of_same {s : Registry} {os : List Output}
    (h : s.pending = r.registry.pending) (ho : welcomed os = []) : r.Queues [] [] s os :=
  queues_of_taken [] h.symm ho

def greeting (r : Receiver) (p : PeerId) : Frame :=
  reply .acon (((r.registry.inboxOf p).map Inbox.lastAccepted).getD 0)
    (Frame.windowOf r.settings.capacity)

theorem greeting_congr {t : Receiver}
    (hi : ∀ p, t.registry.inboxOf p = r.registry.inboxOf p) (hs : t.settings = r.settings) :
    t.greeting = r.greeting := by
  funext p
  rw [greeting,greeting,hi,hs]

theorem acceptNext_seats (h : r.Sound) (ht : r.registry.Tidy) {frame : Frame} {t : Receiver}
    (hn : r.acceptNext = some (a,frame,t)) :
    ∃ p, Seats r.registry t.registry [(a,p)] ∧ frame = r.greeting p := by
  obtain ⟨p,s,x,ha,hx,rfl,rfl,rfl⟩ := acceptNext_eq_some hn
  obtain ⟨b,rest,hpend,rfl⟩ := Registry.accept_eq_some_iff.mp ha
  have hmem : (b,p) ∈ r.registry.pending := by
    rw [hpend]
    exact List.mem_cons_self
  obtain ⟨y,hy,rfl,_⟩ := h.registry.pending b p hmem
  have hat : (r.registry.modify p fun peer => { peer with silence := peer.silence.reset }).peers[p]?
      = some { y with silence := y.silence.reset } := Registry.peers_modify_self hy
  obtain rfl : { y with silence := y.silence.reset } = x := Option.some.inj (hat.symm.trans hx)
  refine ⟨p,⟨hpend,fun c q => ?_,fun q => ?_⟩,by rw [greeting,Registry.inboxOf,hy]; rfl⟩
  · have hnone : r.registry.connected.get? y.addr = none := Dict.not_mem_keys_iff.mp
      (ht.pending_connected _ (List.mem_map.mpr ⟨_,hmem,rfl⟩))
    show (r.registry.connected.insert y.addr p).get? c = some q ↔ _
    rw [Dict.get?_insert,List.mem_singleton,Prod.mk.injEq]
    split
    · rename_i hc
      rw [hc,hnone]
      simp [eq_comm]
    · rename_i hc
      simp [hc]
  · have hsilence := Registry.inbox_modify r.registry p q
      (f := fun peer => { peer with silence := peer.silence.reset }) fun _ => rfl
    exact (Registry.inbox_modify _ p q
      (f := fun peer => { peer with checking := true }) fun _ => rfl).trans hsilence

theorem Sound.acceptNext (h : r.Sound) {frame : Frame} {t : Receiver}
    (hn : r.acceptNext = some (a,frame,t)) : t.Sound := by
  have hact : Performs (fun _ _ => True) True r t _ := acceptNext_acts hn
  have hroom := h.room
  obtain ⟨_,_,_,_,_,_,_,rfl⟩ := acceptNext_eq_some hn
  exact ⟨Registry.Acts.sound hact h.registry,hroom⟩

theorem acceptMany_seats (h : r.Sound) (ht : r.registry.Tidy) (fuel : Nat) :
    ∃ taken, Seats r.registry (acceptMany fuel r).2.registry taken ∧
      (acceptMany fuel r).1 = taken.map fun e => (e.1,r.greeting e.2) := by
  induction fuel generalizing r with
  | zero => exact ⟨[],.refl _,rfl⟩
  | succ fuel ih =>
    unfold acceptMany
    cases hn : r.acceptNext with
    | none => exact ⟨[],.refl _,rfl⟩
    | some e =>
      obtain ⟨a,frame,t⟩ := e
      obtain ⟨p,hseats,rfl⟩ := acceptNext_seats h ht hn
      obtain ⟨taken,hmore,hsent⟩ := ih (h.acceptNext hn) (ht.greets (greets_acceptNext hn .none))
      have hset : t.settings = r.settings := by
        obtain ⟨_,_,_,_,_,_,_,rfl⟩ := acceptNext_eq_some hn
        rfl
      refine ⟨(a,p) :: taken,hseats.trans hmore,?_⟩
      simp only [hsent,List.map_cons,greeting_congr hseats.inbox hset]

theorem attempt_queues (h : r.Sound) (ht : r.registry.Tidy) (k : CallId) {call : Call}
    (hroom : ∀ p room, call = .read p room → 0 < room) :
    r.Queues [] [] (r.attempt call).2.2.registry
      (finished k (r.attempt call).2.1 (r.attempt call).1) := by
  cases call with
  | accept =>
    simp only [attempt]
    split
    · exact queues_of_same rfl rfl
    · split
      · exact queues_of_same rfl rfl
      · rename_i a frame t hn
        obtain ⟨p,hseats,_⟩ := acceptNext_seats h ht hn
        exact queues_of_taken _ hseats.pending rfl
  | read p room =>
    cases hx : r.registry.peers[p]? with
    | none =>
      simp only [attempt,hx]
      exact queues_of_same rfl rfl
    | some x =>
      rw [attempt_read hx (hroom p room rfl)]
      split
      · exact queues_of_same rfl rfl
      · split
        · exact queues_of_same (Registry.pending_forgetDrained _ _) rfl
        · split
          · exact queues_of_same rfl rfl
          · exact queues_of_same rfl rfl

theorem welcomed_onDatagram (a : Address) (raw : Bytes) : welcomed (r.onDatagram a raw).2 = [] :=
  welcomed_eq_nil fun _ _ => onDatagram_finish a raw

theorem source_of_receive {raw : Bytes} {frame : Frame} (hf : Frame.receive raw = .ok frame)
    (kind : Kind) :
    Move.source kind (.event (.datagram a raw)) = if frame.kind = kind then some a else none := by
  simp only [Move.source,hf]

theorem onConnect_pending (a : Address) (fragment : Int32) :
    (r.onConnect a fragment).1.registry.pending = r.registry.pending ∧
        (r.onConnect a fragment).1.registry.peers.length = r.registry.peers.length ∨
      (r.onConnect a fragment).1.registry.pending =
          r.registry.pending ++ [(a,r.registry.peers.length)] ∧
        (r.onConnect a fragment).1.registry.peers.length = r.registry.peers.length + 1 := by
  unfold onConnect
  split
  · split
    · exact .inl ⟨rfl,rfl⟩
    · exact .inl ⟨rfl,rfl⟩
  · exact .inl ⟨rfl,rfl⟩
  all_goals
    split
    · refine .inr ⟨Registry.pending_enqueue _ _ _,?_⟩
      show (Registry.enqueue _ _ _).peers.length = _
      rw [Registry.peers_enqueue]
      exact List.length_append
    · exact .inl ⟨rfl,rfl⟩

theorem onData_pending (a : Address) (fragment : Int32) (payload : Bytes) :
    (r.onData a fragment payload).1.registry.pending = r.registry.pending ∧
      (r.onData a fragment payload).1.registry.peers.length = r.registry.peers.length := by
  unfold onData
  split
  · exact ⟨rfl,rfl⟩
  · split
    · exact ⟨rfl,rfl⟩
    · split
      · exact ⟨rfl,rfl⟩
      · simp only
        split
        · exact ⟨rfl,Registry.length_modify _ _ _⟩
        · exact ⟨rfl,Registry.length_modify _ _ _⟩

theorem onClose_pending (h : r.Sound) (ht : r.registry.Tidy) (a : Address) :
    (r.onClose a).1.registry.pending =
        r.registry.pending.filter (fun e => e.2 ∉ (r.registry.pending.get? a).toList) ∧
      (r.onClose a).1.registry.peers.length = r.registry.peers.length := by
  unfold onClose
  split
  · rename_i p hc
    have hnone : r.registry.pending.get? a = none :=
      Dict.not_mem_keys_iff.mp fun hm =>
        ht.pending_connected a hm (Dict.mem_keys_iff.mpr (by rw [hc]; rfl))
    rw [hnone]
    exact ⟨(filter_not_mem_nil _).symm,Registry.length_modify _ _ _⟩
  · split
    · rename_i p s hd
      have hp : r.registry.pending.get? a = some p := by
        unfold Registry.removePending at hd
        split at hd
        · cases hd
        · rename_i q hq
          cases hd
          exact hq
      rw [hp,Registry.removePending_eq_some hd]
      exact ⟨ht.pending_eraseP h.registry hp,rfl⟩
    · rename_i hd
      have hnone : r.registry.pending.get? a = none := by
        unfold Registry.removePending at hd
        split at hd
        · assumption
        · cases hd
      rw [hnone]
      exact ⟨(filter_not_mem_nil _).symm,rfl⟩

theorem withdrawnBy_of_source (h : m.source .rcls = none) : r.withdrawnBy m = [] := by
  rw [withdrawnBy,h]
  rfl

theorem withdrawnBy_of_nobody (h : r.registry.pending = []) : r.withdrawnBy m = [] := by
  refine List.eq_nil_iff_forall_not_mem.mpr fun p hp => ?_
  obtain ⟨a,ha⟩ := mem_withdrawnBy hp
  rw [h] at ha
  cases ha

theorem enlistedBy_of_source (h : m.source .rcon = none) : r.enlistedBy m = [] := by
  rw [enlistedBy,h]

theorem queues_of_ignored {raw : Bytes} (hw : r.withdrawnBy (.event (.datagram a raw)) = [])
    (hp : (r.onDatagram a raw).1.registry.pending = r.registry.pending)
    (hn : (r.onDatagram a raw).1.registry.peers.length = r.registry.peers.length) :
    r.Queues (r.withdrawnBy (.event (.datagram a raw))) (r.enlistedBy (.event (.datagram a raw)))
      (r.onDatagram a raw).1.registry (r.onDatagram a raw).2 := by
  have hnew : r.enlistedBy (.event (.datagram a raw)) = [] := enlistedBy_of_same hn
  rw [hw,hnew]
  exact queues_of_same hp (welcomed_onDatagram a raw)

theorem onDatagram_queues (h : r.Sound) (ht : r.registry.Tidy) (hb : r.Bare) (a : Address)
    (raw : Bytes) :
    r.Queues (r.withdrawnBy (.event (.datagram a raw))) (r.enlistedBy (.event (.datagram a raw)))
      (r.onDatagram a raw).1.registry (r.onDatagram a raw).2 := by
  cases hc : r.closing with
  | true =>
    have hsame := onDatagram_closed (a := a) hc raw
    exact queues_of_ignored (withdrawnBy_of_nobody (hb hc).pending) (by rw [hsame]) (by rw [hsame])
  | false =>
    cases hf : Frame.receive raw with
    | error e =>
      have hsame : r.onDatagram a raw = (r,[]) := by simp only [onDatagram,hc,hf]; rfl
      exact queues_of_ignored (withdrawnBy_of_source (by simp only [Move.source,hf]))
        (by rw [hsame]) (by rw [hsame])
    | ok frame =>
      have hsource := source_of_receive (a := a) hf
      cases hk : frame.kind with
      | rcon =>
        have hreact := onDatagram_rcon (a := a) hc hf hk
        have hnone := withdrawnBy_of_source (r := r) ((hsource .rcls).trans (by rw [hk]; rfl))
        rcases onConnect_pending (r := r) a frame.fragment with ⟨hp,hn⟩ | ⟨hp,hn⟩
        · exact queues_of_ignored hnone (by rw [hreact,hp]) (by rw [hreact,hn])
        · have hmade : r.enlistedBy (.event (.datagram a raw)) = [(a,r.registry.peers.length)] := by
            rw [enlistedBy,hsource,hk]
            refine if_neg ?_
            show ¬ (r.onDatagram a raw).1.registry.peers.length = _
            rw [hreact,hn]
            exact Nat.succ_ne_self _
          rw [hnone,hmade]
          exact ⟨[],r.registry.pending,filter_not_mem_nil _,by rw [hreact,hp],
            welcomed_onDatagram a raw⟩
      | data =>
        obtain ⟨hp,hn⟩ := onData_pending (r := r) a frame.fragment frame.payload
        have hreact := onDatagram_data (a := a) hc hf hk
        exact queues_of_ignored (withdrawnBy_of_source ((hsource .rcls).trans (by rw [hk]; rfl)))
          (by rw [hreact,hp]) (by rw [hreact,hn])
      | rcls =>
        obtain ⟨hp,hn⟩ := onClose_pending h ht a
        have hreact := onDatagram_rcls (a := a) hc hf hk
        have hgone : r.withdrawnBy (.event (.datagram a raw)) =
            (r.registry.pending.get? a).toList := by
          rw [withdrawnBy,hsource,hk]
          rfl
        rw [hgone,enlistedBy_of_source ((hsource .rcon).trans (by rw [hk]; rfl))]
        exact ⟨[],_,rfl,by rw [hreact,hp,List.append_nil],welcomed_onDatagram a raw⟩
      | _ =>
        have hsame : r.onDatagram a raw = (r,[]) := by simp [onDatagram,hc,hf,hk]
        exact queues_of_ignored (withdrawnBy_of_source ((hsource .rcls).trans (by rw [hk]; rfl)))
          (by rw [hsame]) (by rw [hsame])

theorem onTick_pending (p : PeerId) : (r.onTick p).registry.pending = r.registry.pending := by
  unfold onTick
  split
  · rfl
  · rename_i x _
    split
    · simp only
      split
      · let silent := r.registry.modify p fun peer =>
          { peer with silence := x.silence.tick r.settings.period }
        show (silent.fell p x.addr).pending = _
        by_cases hc : silent.connected.get? x.addr = some p
        · rw [Registry.fell_of_connected hc]
          rfl
        · rw [Registry.fell_of_not_connected hc]
          rfl
      · rfl
    · rfl

theorem make_queues (h : r.Sound) (ht : r.registry.Tidy) (hb : r.Bare)
    (hm : m ≠ .event .close) :
    r.Queues (r.withdrawnBy m) (r.enlistedBy m) (r.make m).1.registry (r.make m).2 := by
  match m with
  | .event (.datagram a raw) => exact onDatagram_queues h ht hb a raw
  | .event .acceptOne =>
    show r.Queues [] [] (r.enter .accept).1.registry (r.enter .accept).2
    rw [enter_registry,enter_finished]
    exact attempt_queues h ht _ fun _ _ he => by cases he
  | .event .acceptAll =>
    show r.Queues [] [] (r.react .acceptAll).1.registry (r.react .acceptAll).2
    simp only [react]
    split
    · exact queues_of_same rfl rfl
    · obtain ⟨taken,hseats,hsent⟩ := acceptMany_seats h ht r.registry.pending.length
      refine queues_of_taken _ hseats.pending ?_
      simp only [answer]
      rw [welcomed_append,welcomed_map_send,hsent,List.map_map]
      exact List.append_nil _
  | .event (.read a room) =>
    show r.Queues [] [] (r.react (.read a room)).1.registry (r.react (.read a room)).2
    simp only [react]
    split
    · exact queues_of_same rfl rfl
    · split
      · exact queues_of_same rfl rfl
      · exact queues_of_same rfl rfl
      · split
        · exact queues_of_same rfl rfl
        · rw [enter_registry,enter_finished]
          exact attempt_queues h ht _ fun _ _ he => by
            cases he
            omega
  | .event (.tick p) =>
    exact queues_of_same (onTick_pending p) rfl
  | .event .close => exact absurd rfl hm
  | .retry k =>
    show r.Queues [] [] (r.poll k).1.registry (r.poll k).2
    cases hw : Waiting.ready? r.waiting k with
    | none =>
      rw [poll_none hw]
      exact queues_of_same rfl rfl
    | some call =>
      rw [poll_registry hw,poll_finished hw]
      exact attempt_queues h ht k fun _ _ => room_of_ready h hw

/-- All records in the order in which they were made, each under its address. -/
def roll (r : Receiver) : List (Address × PeerId) := (r.registry.peers.map (·.addr)).zipIdx

/-- Records keep their addresses, and the one that is made is entered at the end. -/
theorem make_roll (h : r.Sound) (m : Move) : (r.make m).1.roll = r.roll ++ r.enlistedBy m := by
  rcases (make_change h m).grows with hn | ⟨a,raw,frame,rfl,hf,hk,_,_,hs⟩
  · rw [enlistedBy_of_same hn,List.append_nil,roll,roll]
    refine congrArg List.zipIdx (List.ext_getElem? fun p => ?_)
    rw [List.getElem?_map,List.getElem?_map]
    cases hx : r.registry.peers[p]? with
    | none =>
      have hout : (r.make m).1.registry.peers[p]? = none := by
        rw [List.getElem?_eq_none_iff] at hx ⊢
        rwa [hn]
      rw [hout]
    | some x =>
      obtain ⟨y,hy,hxy⟩ := make_aged h m hx
      rw [hy]
      exact congrArg some hxy.addr
  · have hpeers : (r.make (.event (.datagram a raw))).1.registry.peers = r.registry.peers ++
        [.start a frame.fragment r.settings.capacity r.settings.threshold] := by
      rw [hs,Registry.peers_enqueue]
      rfl
    have hmade : r.enlistedBy (.event (.datagram a raw)) = [(a,r.registry.peers.length)] := by
      rw [enlistedBy,source_of_receive hf,hk]
      refine if_neg ?_
      rw [hpeers,List.length_append]
      exact Nat.succ_ne_self _
    rw [hmade,roll,roll,hpeers,List.map_append,List.zipIdx_append,List.length_map,Nat.zero_add]
    rfl

theorem length_roll (r : Receiver) : r.roll.length = r.registry.peers.length := by
  rw [roll,List.length_zipIdx,List.length_map]

theorem nodup_roll (r : Receiver) : (r.roll.map (·.2)).Nodup := by
  rw [roll,List.zipIdx_map_snd]
  exact List.nodup_range'

/-- The records `listed`, without those that are `gone`, are those accepted, of which callers were
told `told`, and those that wait. -/
structure Lined (r : Receiver) (listed : List (Address × PeerId)) (gone : List PeerId)
    (told : List Address) : Prop where
  all : listed = r.roll
  made : ∀ p ∈ gone, p < r.registry.peers.length
  order : ∃ taken rest, (listed.filter fun e => e.2 ∉ gone) = taken ++ rest ∧
    told = taken.map (·.1) ∧ (r.closing = false → r.registry.pending = rest)

theorem lined_start (settings : Settings) : (start settings).Lined [] [] [] :=
  ⟨rfl,nofun,⟨[],[],rfl,rfl,fun _ => rfl⟩⟩

variable {listed : List (Address × PeerId)} {gone : List PeerId} {told : List Address}

theorem pending_lt (h : r.Sound) (hp : (a,p) ∈ r.registry.pending) :
    p < r.registry.peers.length := by
  obtain ⟨x,hx,_⟩ := h.registry.pending a p hp
  exact (List.getElem?_eq_some_iff.mp hx).1

theorem Lined.made_make (hl : r.Lined listed gone told) (h : r.Sound) (m : Move) :
    ∀ p ∈ gone ++ r.withdrawnBy m, p < r.registry.peers.length := by
  intro p hp
  rcases List.mem_append.mp hp with hp | hp
  · exact hl.made p hp
  · obtain ⟨a,ha⟩ := mem_withdrawnBy hp
    exact pending_lt h ha

/-- Who gives up while waiting was not accepted, and who is new is behind all others. -/
theorem Lined.filter (hl : r.Lined listed gone told) (h : r.Sound)
    {taken : List (Address × PeerId)}
    (horder : (listed.filter fun e => e.2 ∉ gone) = taken ++ r.registry.pending) (m : Move) :
    ((listed ++ r.enlistedBy m).filter fun e => e.2 ∉ gone ++ r.withdrawnBy m) =
      taken ++ (r.registry.pending.filter fun e => e.2 ∉ r.withdrawnBy m) ++ r.enlistedBy m := by
  have hnodup : ((taken ++ r.registry.pending).map (·.2)).Nodup := by
    rw [← horder,hl.all]
    exact (nodup_roll r).sublist (List.filter_sublist.map _)
  have htaken : (taken.filter fun e => e.2 ∉ r.withdrawnBy m) = taken := by
    refine List.filter_eq_self.mpr fun e he => decide_eq_true fun hout => ?_
    obtain ⟨b,hb⟩ := mem_withdrawnBy hout
    rw [List.map_append,List.nodup_append] at hnodup
    exact hnodup.2.2 _ (List.mem_map_of_mem he) _ (List.mem_map_of_mem hb) rfl
  have hnew : ((r.enlistedBy m).filter fun e => e.2 ∉ gone ++ r.withdrawnBy m) =
      r.enlistedBy m := by
    refine List.filter_eq_self.mpr fun e he => decide_eq_true fun hout => ?_
    have hlt := hl.made_make h m _ hout
    rw [mem_enlistedBy he] at hlt
    exact Nat.lt_irrefl _ hlt
  have hold : (listed.filter fun e => e.2 ∉ gone ++ r.withdrawnBy m) =
      (listed.filter fun e => e.2 ∉ gone).filter fun e => e.2 ∉ r.withdrawnBy m := by
    rw [List.filter_filter]
    refine List.filter_congr fun e _ => ?_
    rw [← Bool.decide_and]
    exact decide_eq_decide.mpr (by rw [List.mem_append,not_or,and_comm])
  rw [List.filter_append,hnew,hold,horder,List.filter_append,htaken]

theorem Lined.make (hl : r.Lined listed gone told) (h : r.Sound) (ht : r.registry.Tidy)
    (hb : r.Bare) (m : Move) :
    (r.make m).1.Lined (listed ++ r.enlistedBy m) (gone ++ r.withdrawnBy m)
      (told ++ welcomed (r.make m).2) := by
  have hroll := make_roll h m
  refine ⟨by rw [hroll,hl.all],fun p hp => ?_,?_⟩
  · have hlen := congrArg List.length hroll
    rw [length_roll,List.length_append,length_roll] at hlen
    exact Nat.lt_of_lt_of_le (hl.made_make h m p hp) (by omega)
  obtain ⟨taken,rest,horder,htold,hpend⟩ := hl.order
  by_cases hm : m = .event .close
  · subst hm
    have hshut : (r.make (.event .close)).1.closing = true := shut_closing r
    refine ⟨taken,rest,?_,?_,fun ho => by rw [hshut] at ho; cases ho⟩
    · simpa [enlistedBy,withdrawnBy,Move.source] using horder
    · rw [htold]
      exact List.append_nil _
  obtain ⟨more,left,hqueue,hleft,hmore⟩ := make_queues h ht hb hm
  cases hc : r.closing with
  | false =>
    obtain rfl := hpend hc
    refine ⟨taken ++ more,left ++ r.enlistedBy m,?_,by rw [htold,hmore,List.map_append],
      fun _ => hleft⟩
    rw [hl.filter h horder,hqueue]
    simp only [List.append_assoc]
  | true =>
    have hshut : (r.make m).1.closing = true := by rw [make_closing hm,hc]
    rw [(hb hc).pending] at hqueue
    obtain ⟨rfl,rfl⟩ := List.append_eq_nil_iff.mp hqueue.symm
    have hnew : r.enlistedBy m = [] := by
      rw [← List.nil_append (r.enlistedBy m),← hleft]
      exact (hb.make h m hshut).pending
    rw [hnew,withdrawnBy_of_nobody (hb hc).pending,hmore]
    refine ⟨taken,rest,?_,?_,fun ho => by rw [hshut] at ho; cases ho⟩
    · rw [List.append_nil,List.append_nil,horder]
    · rw [htold]
      exact List.append_nil _

theorem Lined.play (hl : r.Lined listed gone told) (h : r.Sound) (ht : r.registry.Tidy)
    (hb : r.Bare) (ms : List Move) :
    (r.play ms).1.Lined (listed ++ r.enlisted ms) (gone ++ r.withdrawn ms)
      (told ++ welcomed (r.play ms).2) := by
  induction ms generalizing r listed gone told with
  | nil => simpa [enlisted,withdrawn,tally,play,welcomed] using hl
  | cons m ms ih =>
    have hlater := ih (hl.make h ht hb m) (h.make m) ((make_change h m).tidy ht) (hb.make h m)
    rw [play,chain_cons,welcomed_append,enlisted,withdrawn,tally,tally,← List.append_assoc,
      ← List.append_assoc,← List.append_assoc]
    exact hlater

/-- In which order peers are accepted in the moves `ms`. -/
structure Arrivals (settings : Settings) (ms : List Move) : Prop where
  listed : (start settings).enlisted ms = (after settings ms).roll
  /-- Those records whose addresses did not ask to close before were accepted in the order of the
  list, and those that wait until the receiver is closed are those not accepted yet. -/
  order : ∃ taken rest, (((start settings).enlisted ms).filter fun e =>
      e.2 ∉ (start settings).withdrawn ms) = taken ++ rest ∧
    welcomed ((start settings).play ms).2 = taken.map (·.1) ∧
    ((taken ++ rest).map (·.2)).Nodup ∧
    ((after settings ms).closing = false → (after settings ms).registry.pending = rest)
  again : ∀ a raw frame, Frame.receive raw = .ok frame → frame.kind = .rcon →
    (after settings ms).registry.state a = .pending ∨
      (after settings ms).registry.state a = .connected →
    ((after settings ms).react (.datagram a raw)).1 = after settings ms

/-- Peers are accepted in the order of their requests. -/
theorem arrivals_along_play (settings : Settings) (ms : List Move) : Arrivals settings ms := by
  have hsound := sound_after settings ms
  have hbare := bare_after settings ms
  have hlined := (lined_start settings).play (sound_start settings) (tidy_start settings)
    (bare_start settings) ms
  simp only [List.nil_append] at hlined
  obtain ⟨taken,rest,horder,htold,hpend⟩ := hlined.order
  refine ⟨hlined.all,⟨taken,rest,horder,htold,?_,hpend⟩,fun a raw frame hf hk hst => ?_⟩
  · rw [← horder,hlined.all]
    exact (nodup_roll _).sublist (List.filter_sublist.map _)
  · show ((after settings ms).onDatagram a raw).1 = _
    rcases hst with hst | hst
    · rw [onDatagram_waiting hbare hf hk hst]
    · obtain ⟨p,x,_,_,he⟩ := onDatagram_connected hsound hbare hf hk hst
      rw [he]

/-- Three addresses ask, the first of them once more, and the second gives up; the third asks again
between two calls to accept. -/
def queueing (a b c : Address) : List Move :=
  let ask := Frame.encode ⟨.rcon,0,0,[]⟩
  [.event (.datagram a ask),.event (.datagram b ask),.event (.datagram a ask),
    .event (.datagram c ask),.event (.datagram b (Frame.encode ⟨.rcls,0,0,[]⟩)),
    .event .acceptOne,.event (.datagram c ask),.event .acceptAll]

example :
    let a : Address := ⟨.localhost,0,4001⟩
    let b : Address := ⟨.localhost,0,4002⟩
    let c : Address := ⟨.localhost,0,4003⟩
    let r := start ⟨64,.ofMillis 1500,.ofMillis 500,1,true⟩
    r.enlisted (queueing a b c) = [(a,0),(b,1),(c,2)] ∧ r.withdrawn (queueing a b c) = [1] ∧
      welcomed (r.play (queueing a b c)).2 = [a,c] := by
  decide +kernel

end Receiver
end ReliableTransport
