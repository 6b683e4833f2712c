import Mathlib.Data.List.Basic
import ReliableTransport.Proofs.Accounts
import ReliableTransport.Proofs.Arrivals
import ReliableTransport.Proofs.Heartbeats
import ReliableTransport.Proofs.Lapses

/-! What a receiver tells its peers about what it has taken. A frame that does so goes to a connected
peer, and states what the accounts of its record say at that moment (`receipts_along_play`): how far
the peer has got, and the room that is left. Such a frame is sent when a peer is accepted, when it
asks to connect once more, and for every datagram of data until it has asked to close. Nothing is
taken without it, so that the number goes up by one when the data that is answered was taken, and
stays otherwise. -/
namespace ReliableTransport

namespace Registry

variable {hears : Address → Frame → Prop} {capacity : Nat} {threshold : Duration}
  {shutting : Prop} {r s : Registry} {ds : List Deed} {p : PeerId} {x : Peer}

theorem inboxOf_eq (hx : r.peers[p]? = some x) : r.inboxOf p = some x.inbox := by
  rw [inboxOf,hx]
  rfl

theorem unreadOf_of_inbox {b : Inbox} (hb : r.inboxOf p = some b) : r.unreadOf p = b.unread := by
  obtain ⟨x,hx,rfl⟩ := Option.map_eq_some_iff.mp hb
  rw [unreadOf,hx]

def Roomy (capacity : Nat) (r : Registry) : Prop :=
  ∀ (p : PeerId) (x : Peer), r.peers[p]? = some x →
    x.inbox.capacity = capacity ∧ x.inbox.unread.length ≤ capacity

theorem Act.roomy (ha : Act hears capacity threshold shutting r ds s) (h : r.Sound)
    (hr : r.Roomy capacity) : s.Roomy capacity := by
  intro p y hy
  rcases ha.origin h hy with ⟨x,hx,hl,hp⟩ | ⟨_,_,_,_,_,_,rfl⟩
  · obtain ⟨hcap,hroom⟩ := hr p x hx
    refine ⟨hl.capacity.trans hcap,?_⟩
    cases hp with
    | keep _ _ hh =>
      have hlength := congrArg List.length hh
      rw [List.length_append] at hlength
      omega
    | take _ _ _ _ ho _ _ =>
      obtain ⟨⟨_,hfits⟩,hy⟩ := Inbox.offer_eq_some_iff.mp ho
      rw [Inbox.free,hcap] at hfits
      rw [hy,List.length_append]
      omega
  · exact ⟨rfl,Nat.zero_le _⟩

theorem Acts.roomy (ha : Acts hears capacity threshold shutting r ds s) (h : r.Sound)
    (hr : r.Roomy capacity) : s.Roomy capacity := by
  induction ha with
  | done => exact hr
  | next ha _ ih => exact ih (ha.sound h) (ha.roomy h hr)

end Registry

namespace Receiver

open Registry (Tidy Seats Roomy)

variable {settings : Settings} {ms : List Move} {r : Receiver} {m : Move} {a : Address}
  {p q : PeerId} {x : Peer} {b c : Inbox}

theorem settings_after (settings : Settings) (ms : List Move) :
    (after settings ms).settings = settings :=
  chain_induct (P := fun t : Receiver => t.settings = settings) rfl
    (fun t ht m => (make_settings t m).trans ht) ms

theorem roomy_make (h : r.Sound) (hr : r.registry.Roomy r.settings.capacity) (m : Move) :
    (r.make m).1.registry.Roomy (r.make m).1.settings.capacity := by
  rw [make_settings]
  exact Registry.Acts.roomy (make_performs h m) h.registry hr

theorem roomy_after (settings : Settings) (ms : List Move) :
    (after settings ms).registry.Roomy settings.capacity := by
  have hroomy : (after settings ms).registry.Roomy (after settings ms).settings.capacity :=
    (chain_induct (P := fun t : Receiver => t.Sound ∧ t.registry.Roomy t.settings.capacity)
      ⟨sound_start settings,fun p x hx => by cases hx⟩
      (fun t ⟨hsound,hroomy⟩ m => ⟨hsound.make m,roomy_make hsound hroomy m⟩) ms).2
  rwa [settings_after] at hroomy

/-- The inbox of a record is kept by what was proposed for it, accepted into it and returned. -/
theorem accounts_after (hb : (after settings ms).registry.inboxOf p = some b) :
    ∃ initial, (start settings).proposed ms p = [initial] ∧
      b.Accounts initial settings.capacity ((start settings).accepted ms p)
        ((start settings).returned ms p) := by
  obtain ⟨x,hx,rfl⟩ := Option.map_eq_some_iff.mp hb
  have hawaits := Awaits.play (.unmade (p := p) rfl) (sound_start settings) ms
  obtain ⟨initial,hproposed,hnext⟩ := hawaits.next hx
  obtain ⟨hcap,hroom⟩ := roomy_after settings ms p x hx
  have hconserved := returned_append_unread (sound_start settings) ms p
  rw [Registry.unreadOf_of_inbox hb] at hconserved
  exact ⟨initial,hproposed,hcap,hroom,hnext,hconserved⟩

/-- The frames that tell a peer how far it has got, with the addresses they go to. -/
def acknowledgements (os : List Output) : List (Address × Frame) := os.filterMap fun
  | .send a frame => if frame.kind = .acon ∨ frame.kind = .adat then some (a,frame) else none
  | .finish _ _ => none

/-- The frames that tell the peer of a record how far it has got in a move. -/
def acksBy (p : PeerId) (r : Receiver) (m : Move) : List Frame :=
  ((acknowledgements (r.make m).2).filter fun e =>
    (r.make m).1.registry.connected.get? e.1 = some p).map (·.2)

/-- The frames that tell the peer of a record how far it has got, in moves in a row. -/
def acks (r : Receiver) (ms : List Move) (p : PeerId) : List Frame := r.tally (acksBy p) ms

/-- The address of a connected record, if a move brings its request to close. -/
def goodbyesBy (p : PeerId) (r : Receiver) (m : Move) : List Address :=
  ((m.source .rcls).filter fun a => r.registry.connected.get? a = some p).toList

/-- The requests to close that came from the address of a record while it was connected. -/
def goodbyes (r : Receiver) (ms : List Move) (p : PeerId) : List Address :=
  r.tally (goodbyesBy p) ms

/-- A move brings the next fragment of a connected record, and all of it fits: the inbox `b` becomes
`c`. -/
def Fills (r : Receiver) (m : Move) (p : PeerId) (b c : Inbox) : Prop :=
  ∃ a raw frame, m = .event (.datagram a raw) ∧ Frame.receive raw = .ok frame ∧
    frame.kind = .data ∧ r.registry.connected.get? a = some p ∧
    b.offer frame.fragment frame.payload = some c

/-- Which peers a move tells how far they have got, and into which records it takes something. -/
inductive Speech (r : Receiver) (m : Move) : Prop
  | silent (ho : acknowledgements (r.make m).2 = []) (hn : ∀ p, r.acceptedBy p m = [])
      (hc : ∀ a p, (r.make m).1.registry.connected.get? a = some p →
        r.registry.connected.get? a = some p)
  | greets {taken : List (Address × PeerId)} (hs : Seats r.registry (r.make m).1.registry taken)
      (hn : ∀ p, r.acceptedBy p m = [])
      (ho : acknowledgements (r.make m).2 = taken.map fun e => (e.1,r.greeting e.2))
  | answers {a : Address} {p : PeerId} {b c : Inbox} {kind : Kind} (hk : kind = .acon ∨ kind = .adat)
      (hp : r.registry.connected.get? a = some p) (hb : r.registry.inboxOf p = some b)
      (hi : (r.make m).1.registry.inboxOf p = some c) (hbc : c = b ∨ r.Fills m p b c)
      (hn : ∀ q, q ≠ p → r.acceptedBy q m = [])
      (hc : (r.make m).1.registry.connected = r.registry.connected)
      (ho : (r.make m).2 = [.send a (reply kind c.lastAccepted c.window)])

theorem acceptedBy_of_inbox
    (h : ∀ b, r.registry.inboxOf p = some b → (r.make m).1.registry.inboxOf p = some b) :
    r.acceptedBy p m = [] := by
  unfold acceptedBy
  split
  · split
    · rename_i x y _ hx hy
      have hsame := h _ (Registry.inboxOf_eq hx)
      rw [Registry.inboxOf_eq hy] at hsame
      rw [if_pos (by rw [Option.some.inj hsame])]
    · rfl
  · rfl

/-- A record into which nothing is taken waits for the same fragment as before. -/
theorem next_of_accepted (h : r.Sound) (hn : r.acceptedBy p m = [])
    (hb : r.registry.inboxOf p = some b) :
    ∃ c, (r.make m).1.registry.inboxOf p = some c ∧ c.next = b.next := by
  obtain ⟨x,hx,rfl⟩ := Option.map_eq_some_iff.mp hb
  obtain ⟨y,hy,hnext⟩ := make_next h m hx
  refine ⟨y.inbox,Registry.inboxOf_eq hy,?_⟩
  rw [hnext,hn]
  exact Int32.add_zero _

section

variable {t : Receiver} {os : List Output}

theorem silent_of_inbox (he : r.make m = (t,os)) (ho : acknowledgements os = [])
    (hi : ∀ q b, r.registry.inboxOf q = some b → t.registry.inboxOf q = some b)
    (hc : t.registry.connected = r.registry.connected) : r.Speech m := by
  refine .silent (by rw [he]; exact ho) (fun q => acceptedBy_of_inbox fun b hb => ?_)
    fun a p hp => ?_
  · rw [he]
    exact hi q b hb
  · rw [he] at hp
    rwa [← hc]

theorem silent_of_same (he : r.make m = (r,[])) : r.Speech m :=
  silent_of_inbox he rfl (fun _ _ hb => hb) rfl

theorem answers_of_modify (hx : r.registry.peers[p]? = some x)
    (hp : r.registry.connected.get? a = some p) {kind : Kind} (hk : kind = .acon ∨ kind = .adat)
    (he : r.make m = (t,[.send a (reply kind c.lastAccepted c.window)])) {f : Peer → Peer}
    (hreg : t.registry = r.registry.modify p f) (hc : (f x).inbox = c)
    (hbc : c = x.inbox ∨ r.Fills m p x.inbox c) : r.Speech m := by
  refine .answers hk hp (Registry.inboxOf_eq hx) ?_ hbc (fun q hq => ?_) ?_ ?_
  · rw [he]
    show t.registry.inboxOf p = _
    rw [hreg,← hc]
    exact Registry.inboxOf_eq (Registry.peers_modify_self hx)
  · refine acceptedBy_of_inbox fun b hb => ?_
    rw [he]
    show t.registry.inboxOf q = _
    rw [hreg,Registry.inboxOf,Registry.peers_modify_ne f hq.symm]
    exact hb
  · rw [he]
    show t.registry.connected = _
    rw [hreg]
    rfl
  · rw [he]

theorem onConnect_speech {fragment : Int32}
    (he : r.make m = r.onConnect a fragment) : r.Speech m := by
  unfold onConnect at he
  split at he
  · cases hx : (r.registry.connected.get? a).bind fun p => r.registry.peers[p]? with
    | none =>
      rw [hx] at he
      exact silent_of_same he
    | some x =>
      rw [hx] at he
      obtain ⟨p,hp,hx⟩ := Option.bind_eq_some_iff.mp hx
      exact answers_of_modify (f := id) hx hp (.inl rfl) he (by simp [Registry.modify]) rfl (.inl rfl)
  · exact silent_of_same he
  all_goals
    split at he
    · refine silent_of_inbox he rfl (fun q b hb => ?_) (Registry.connected_enqueue _ _ _)
      obtain ⟨x,hx,rfl⟩ := Option.map_eq_some_iff.mp hb
      refine Registry.inboxOf_eq ?_
      show (Registry.enqueue _ _ _).peers[q]? = _
      rw [Registry.peers_enqueue]
      exact (List.getElem?_append_left (List.getElem?_eq_some_iff.mp hx).1).trans hx
    · exact silent_of_same he

theorem onData_speech (h : r.Sound) {raw : Bytes} {frame : Frame}
    (hf : Frame.receive raw = .ok frame) (hk : frame.kind = .data)
    (he : r.make (.event (.datagram a raw)) = r.onData a frame.fragment frame.payload) :
    r.Speech (.event (.datagram a raw)) := by
  cases hc : r.registry.connected.get? a with
  | none =>
    rw [onData_of_none hc] at he
    exact silent_of_same he
  | some p =>
    obtain ⟨x,hx,_⟩ := h.registry.connected a p hc
    cases hcl : x.closing with
    | true =>
      rw [onData_of_closing hc hx hcl] at he
      exact silent_of_same he
    | false =>
      cases ho : x.inbox.offer frame.fragment frame.payload with
      | none =>
        rw [onData_of_refused hc hx hcl ho] at he
        exact answers_of_modify hx hc (.inr rfl) he rfl rfl (.inl rfl)
      | some inbox =>
        rw [onData_of_taken hc hx hcl ho] at he
        exact answers_of_modify hx hc (.inr rfl) he rfl rfl
          (.inr ⟨a,raw,frame,rfl,hf,hk,hc,ho⟩)

theorem onClose_speech (he : r.make m = r.onClose a) : r.Speech m := by
  unfold onClose at he
  split at he
  · rename_i p _
    refine silent_of_inbox he rfl (fun q b hb => ?_) rfl
    rw [← hb]
    exact Registry.inbox_modify r.registry p q (f := .requestClose) fun _ => rfl
  · split at he
    · rename_i hd
      rw [Registry.removePending_eq_some hd] at he
      exact silent_of_inbox he rfl (fun _ _ hb => hb) rfl
    · exact silent_of_same he

end

theorem onDatagram_speech (h : r.Sound) (a : Address) (raw : Bytes) :
    r.Speech (.event (.datagram a raw)) := by
  cases hc : r.closing with
  | true => exact silent_of_same (onDatagram_closed hc raw)
  | false =>
    cases hf : Frame.receive raw with
    | error e => exact silent_of_same (by simp [make,react,onDatagram,hc,hf])
    | ok frame =>
      cases hk : frame.kind with
      | rcon => exact onConnect_speech (onDatagram_rcon hc hf hk)
      | data => exact onData_speech h hf hk (onDatagram_data hc hf hk)
      | rcls => exact onClose_speech (onDatagram_rcls hc hf hk)
      | _ => exact silent_of_same (by simp [make,react,onDatagram,hc,hf,hk])

theorem attempt_speech (h : r.Sound) (ht : r.registry.Tidy) (k : CallId) {call : Call}
    (hreg : (r.make m).1.registry = (r.attempt call).2.2.registry)
    (hout : (r.make m).2 = finished k (r.attempt call).2.1 (r.attempt call).1)
    (hroom : ∀ p room, call = .read p room → 0 < room) (hn : ∀ p, r.acceptedBy p m = []) :
    r.Speech m := by
  have hsilent : ∀ {t : Receiver} {o : Outcome Call Result}, r.attempt call = (o,[],t) →
      t.registry.connected = r.registry.connected → r.Speech m := by
    intro t o he hc
    rw [he] at hreg hout
    refine .silent ?_ hn fun a p hp => by rwa [hreg,hc] at hp
    rw [hout]
    cases o with
    | wait call => rfl
    | answer result => rfl
  cases call with
  | accept =>
    cases hcl : r.closing with
    | true => exact hsilent (by simp only [attempt,hcl]; rfl) rfl
    | false =>
      cases hnext : r.acceptNext with
      | none => exact hsilent (by simp only [attempt,hcl,hnext]; rfl) rfl
      | some e =>
        obtain ⟨a,frame,t⟩ := e
        obtain ⟨p,hseats,rfl⟩ := acceptNext_seats h ht hnext
        have he : r.attempt .accept = (.answer (.accepted a),[.send a (r.greeting p)],t) := by
          simp only [attempt,hcl,hnext]
          rfl
        rw [he] at hreg hout
        exact .greets (by rw [hreg]; exact hseats) hn (by rw [hout]; rfl)
  | read p room =>
    cases hx : r.registry.peers[p]? with
    | none => exact hsilent (by simp only [attempt,hx]; rfl) rfl
    | some x =>
      have he := attempt_read hx (hroom p room rfl)
      split at he
      · exact hsilent he rfl
      · split at he
        · exact hsilent he (Registry.connected_forgetDrained _ _)
        · split at he
          · exact hsilent he rfl
          · exact hsilent he rfl

theorem acknowledgements_sends {es : List (Address × Frame)} (h : ∀ e ∈ es, e.2.kind = .acon)
    (k : CallId) (result : Result) :
    acknowledgements (es.map (fun e => .send e.1 e.2) ++ [.finish k result]) = es := by
  rw [acknowledgements,List.filterMap_append,List.filterMap_map]
  refine (List.append_nil _).trans ?_
  refine (List.filterMap_congr fun e he => ?_).trans List.filterMap_some
  exact if_pos (.inl (h e he))

theorem acceptAll_speech (h : r.Sound) (ht : r.registry.Tidy) : r.Speech (.event .acceptAll) := by
  cases hc : r.closing with
  | true =>
    have he : r.make (.event .acceptAll) = r.answer [] (.failed .closed) := by
      simp [make,react,hc]
    exact silent_of_inbox he rfl (fun _ _ hb => hb) rfl
  | false =>
    obtain ⟨taken,hseats,hsent⟩ := acceptMany_seats h ht r.registry.pending.length
    have he : r.make (.event .acceptAll) = (acceptMany r.registry.pending.length r).2.answer
        ((acceptMany r.registry.pending.length r).1.map fun e => .send e.1 e.2)
        (.acceptedAll ((acceptMany r.registry.pending.length r).1.map (·.1))) := by
      simp [make,react,hc]
    refine .greets (by rw [he]; exact hseats) (fun _ => rfl) ?_
    rw [he,answer,hsent]
    refine acknowledgements_sends (fun e hm => ?_) _ _
    obtain ⟨_,_,rfl⟩ := List.mem_map.mp hm
    rfl

theorem connected_onTick (hc : (r.onTick q).registry.connected.get? a = some p) :
    r.registry.connected.get? a = some p := by
  unfold onTick at hc
  split at hc
  · exact hc
  · rename_i x _
    split at hc
    · simp only at hc
      split at hc
      · let silent := r.registry.modify q fun peer =>
          { peer with silence := x.silence.tick r.settings.period }
        obtain ⟨s,hs,_,_,hconn,_⟩ := Registry.fell_eq silent q x.addr
        have hc : (silent.fell q x.addr).connected.get? a = some p := hc
        rw [hs] at hc
        exact (hconn a p hc).1
      · exact hc
    · exact hc

theorem connected_shut (hc : r.shut.registry.connected.get? a = some p) :
    r.registry.connected.get? a = some p := by
  cases hcl : r.closing with
  | true => rwa [shut,if_pos hcl] at hc
  | false =>
    rw [shut_registry hcl,(Registry.vacant_shut _).connected] at hc
    cases hc

theorem read_speech (h : r.Sound) (ht : r.registry.Tidy) (a : Address) (room : Nat) :
    r.Speech (.event (.read a room)) := by
  have hanswer : ∀ result, r.make (.event (.read a room)) = r.answer [] result →
      r.Speech (.event (.read a room)) := fun result he =>
    silent_of_inbox he rfl (fun _ _ hb => hb) rfl
  have he : r.make (.event (.read a room)) = r.react (.read a room) := rfl
  simp only [react] at he
  split at he
  · exact hanswer _ he
  · split at he
    · exact hanswer _ he
    · exact hanswer _ he
    · split at he
      · exact hanswer _ he
      · exact attempt_speech h ht _ (by rw [he]; exact enter_registry r _)
          (by rw [he]; exact enter_finished r _)
          (fun _ _ hc => by
            cases hc
            omega) fun _ => rfl

theorem make_speech (h : r.Sound) (ht : r.registry.Tidy) (m : Move) : r.Speech m := by
  match m with
  | .event (.datagram a raw) => exact onDatagram_speech h a raw
  | .event .acceptOne =>
    exact attempt_speech h ht _ (enter_registry r .accept) (enter_finished r .accept)
      (fun _ _ he => by cases he) fun _ => rfl
  | .event .acceptAll => exact acceptAll_speech h ht
  | .event (.read a room) => exact read_speech h ht a room
  | .event (.tick p) => exact .silent rfl (fun _ => rfl) fun _ _ => connected_onTick
  | .event .close => exact .silent rfl (fun _ => rfl) fun _ _ => connected_shut
  | .retry k =>
    cases hw : Waiting.ready? r.waiting k with
    | none => exact silent_of_same (poll_none hw)
    | some call =>
      exact attempt_speech h ht k (poll_registry hw) (poll_finished hw)
        (fun _ _ => room_of_ready h hw) fun _ => rfl

/-- What a move takes into the record `p`, and what it tells the peer of the record. -/
inductive Tells (r : Receiver) (m : Move) (p : PeerId) : List Frame → Prop
  | nothing (hn : r.acceptedBy p m = [])
      (hc : ∀ a, (r.make m).1.registry.connected.get? a = some p →
        r.registry.connected.get? a = some p) : Tells r m p []
  | greeting {a : Address} {b : Inbox} (hp : (a,p) ∈ r.registry.pending)
      (hb : r.registry.inboxOf p = some b) (hi : (r.make m).1.registry.inboxOf p = some b)
      (hn : r.acceptedBy p m = []) :
      Tells r m p [reply .acon b.lastAccepted (Frame.windowOf r.settings.capacity)]
  | answer {a : Address} {b c : Inbox} {kind : Kind} (hk : kind = .acon ∨ kind = .adat)
      (hp : r.registry.connected.get? a = some p) (hb : r.registry.inboxOf p = some b)
      (hi : (r.make m).1.registry.inboxOf p = some c) (hbc : c = b ∨ r.Fills m p b c)
      (hc : (r.make m).1.registry.connected = r.registry.connected) :
      Tells r m p [reply kind c.lastAccepted c.window]

theorem acksBy_of_silent (ho : acknowledgements (r.make m).2 = []) : r.acksBy p m = [] := by
  rw [acksBy,ho]
  rfl

theorem acksBy_of_greets (h : r.Sound) {taken : List (Address × PeerId)}
    (hs : Seats r.registry (r.make m).1.registry taken)
    (ho : acknowledgements (r.make m).2 = taken.map fun e => (e.1,r.greeting e.2)) :
    r.acksBy p m = if p ∈ taken.map (·.2) then [r.greeting p] else [] := by
  have hseat : ∀ e ∈ taken, (r.make m).1.registry.connected.get? e.1 = some e.2 := fun e he =>
    (hs.connected e.1 e.2).mpr (.inr he)
  have hnodup : (taken.map (·.2)).Nodup := by
    have hpend := h.registry.nodup
    rw [hs.pending,List.map_append] at hpend
    exact (List.nodup_append.mp hpend).1
  rw [acksBy,ho]
  clear ho hs
  induction taken with
  | nil => rfl
  | cons e taken ih =>
    rw [List.map_cons,List.nodup_cons] at hnodup
    have hrest := ih (fun e he => hseat e (List.mem_cons_of_mem _ he)) hnodup.2
    rw [List.map_cons,List.filter_cons,hseat e List.mem_cons_self]
    by_cases hp : e.2 = p
    · subst hp
      rw [if_neg hnodup.1] at hrest
      simp [hrest]
    · have hne : ¬ p = e.2 := fun he => hp he.symm
      simp only [Option.some.injEq,hp,decide_false,Bool.false_eq_true,if_false,hrest,List.map_cons,
        List.mem_cons,hne,false_or]

theorem acknowledgements_answer {kind : Kind} (hk : kind = .acon ∨ kind = .adat) (a : Address)
    (fragment window : Int32) :
    acknowledgements [.send a (reply kind fragment window)] = [(a,reply kind fragment window)] :=
  List.filterMap_cons_some (if_pos hk)

theorem acksBy_of_answers {kind : Kind} (hk : kind = .acon ∨ kind = .adat)
    (hp : r.registry.connected.get? a = some p)
    (hc : (r.make m).1.registry.connected = r.registry.connected)
    {fragment window : Int32} (ho : (r.make m).2 = [.send a (reply kind fragment window)]) :
    r.acksBy q m = if p = q then [reply kind fragment window] else [] := by
  rw [acksBy,ho,acknowledgements_answer hk,hc,List.filter_singleton,hp]
  by_cases hq : p = q
  · simp [hq]
  · simp [hq]

theorem make_tells (h : r.Sound) (ht : r.registry.Tidy) (m : Move) (p : PeerId) :
    r.Tells m p (r.acksBy p m) := by
  cases make_speech h ht m with
  | silent ho hn hc =>
    rw [acksBy_of_silent ho]
    exact .nothing (hn p) fun a => hc a p
  | @greets taken hs hn ho =>
    rw [acksBy_of_greets h hs ho]
    split
    · rename_i hp
      obtain ⟨⟨a,q⟩,he,rfl⟩ := List.mem_map.mp hp
      have hpend : (a,q) ∈ r.registry.pending := by
        rw [hs.pending]
        exact List.mem_append_left _ he
      obtain ⟨x,hx,_⟩ := h.registry.pending a q hpend
      have hb := Registry.inboxOf_eq hx
      rw [greeting,hb]
      exact .greeting hpend hb ((hs.inbox q).trans hb) (hn q)
    · rename_i hp
      refine .nothing (hn p) fun a ha => ?_
      refine ((hs.connected a p).mp ha).resolve_right fun he => hp ?_
      exact List.mem_map.mpr ⟨_,he,rfl⟩
  | @answers a q b c kind hk hq hb hi hbc hn hc ho =>
    rw [acksBy_of_answers hk hq hc ho]
    split
    · rename_i he
      subst he
      exact .answer hk hq hb hi hbc hc
    · rename_i hne
      exact .nothing (hn p fun he => hne he.symm) fun a ha => by rwa [← hc]

/-- Of those that wait after a move only who is new did not wait before. -/
theorem pending_of_make (h : r.Sound) (ht : r.registry.Tidy) (hb : r.Bare)
    (hx : r.registry.peers[p]? = some x) (hp : (a,p) ∈ (r.make m).1.registry.pending) :
    (a,p) ∈ r.registry.pending := by
  by_cases hm : m = .event .close
  · subst hm
    have hshut : (r.make (.event .close)).1.closing = true := shut_closing r
    rw [(hb.make h _ hshut).pending] at hp
    cases hp
  · obtain ⟨taken,rest,hqueue,hleft,_⟩ := make_queues h ht hb hm
    rw [hleft] at hp
    rcases List.mem_append.mp hp with hp | hp
    · have hkept : (a,p) ∈ taken ++ rest := List.mem_append_right _ hp
      rw [← hqueue] at hkept
      exact (List.mem_filter.mp hkept).1
    · have hlt := (List.getElem?_eq_some_iff.mp hx).1
      rw [← mem_enlistedBy hp] at hlt
      exact absurd hlt (Nat.lt_irrefl _)

theorem unmade_of_make (h : r.Sound) (hnone : (r.make m).1.registry.peers[p]? = none) :
    r.registry.peers[p]? = none := by
  cases hx : r.registry.peers[p]? with
  | none => rfl
  | some x =>
    obtain ⟨y,hy,_⟩ := make_aged h m hx
    rw [hnone] at hy
    cases hy

structure Untouched (r : Receiver) (p : PeerId) (given : List Bytes) : Prop where
  unmade : r.registry.peers[p]? = none → given = []
  waits : ∀ a, (a,p) ∈ r.registry.pending → given = []

theorem Untouched.make {given : List Bytes} (hu : r.Untouched p given) (h : r.Sound)
    (ht : r.registry.Tidy) (hb : r.Bare) (m : Move) :
    (r.make m).1.Untouched p (given ++ r.acceptedBy p m) := by
  cases hx : r.registry.peers[p]? with
  | none =>
    rw [hu.unmade hx,acceptedBy_of_none hx]
    exact ⟨fun _ => rfl,fun _ _ => rfl⟩
  | some x =>
    refine ⟨fun hnone => ?_,fun a ha => ?_⟩
    · rw [unmade_of_make h hnone] at hx
      cases hx
    · have hpend := pending_of_make h ht hb hx ha
      have hnothing : r.acceptedBy p m = [] := by
        have htells := make_tells h ht m p
        generalize r.acksBy p m = frames at htells
        cases htells with
        | nothing hn _ => exact hn
        | greeting _ _ _ hn => exact hn
        | answer _ hp => exact absurd hp (h.registry.apart a _ p hpend)
      rw [hu.waits a hpend,hnothing]
      rfl

theorem goodbyesBy_ne_nil_iff :
    r.goodbyesBy p m ≠ [] ↔ ∃ a raw frame, m = .event (.datagram a raw) ∧
      Frame.receive raw = .ok frame ∧ frame.kind = .rcls ∧
      r.registry.connected.get? a = some p := by
  constructor
  · intro hne
    obtain ⟨a,ha⟩ := List.exists_mem_of_ne_nil _ hne
    obtain ⟨hsource,hp⟩ := Option.filter_eq_some_iff.mp (Option.mem_toList.mp ha)
    unfold Move.source at hsource
    split at hsource
    · split at hsource
      · rename_i hf
        split at hsource
        · rename_i hk
          obtain rfl := Option.some.inj hsource
          exact ⟨_,_,_,rfl,hf,hk,of_decide_eq_true hp⟩
        · cases hsource
      · cases hsource
    · cases hsource
  · rintro ⟨a,raw,frame,rfl,hf,hk,hp⟩
    rw [goodbyesBy,source_of_receive hf,if_pos hk]
    simp [hp]

theorem signs_eq_heard {frame : Frame} (hs : r.signs p m = [.heard frame]) :
    ∃ a raw, m = .event (.datagram a raw) ∧ Frame.receive raw = .ok frame ∧
      r.addr p = some a := by
  unfold signs at hs
  split at hs
  · split at hs
    · cases hs
    · rename_i hf
      unfold noted at hs
      split at hs
      · rename_i ha
        obtain rfl := Sign.heard.inj (List.singleton_inj.mp hs)
        exact ⟨_,_,rfl,hf,ha⟩
      · cases hs
  · split at hs
    · cases hs
    · cases hs
  · unfold Vital.entered at hs
    split at hs
    · cases hs
    · cases hs

theorem goodbyesBy_iff_sign (h : r.Sound) {v : Vital} (hv : r.registry.vital p = some v) :
    r.goodbyesBy p m ≠ [] ↔
      v.seated = true ∧ ∃ frame, r.signs p m = [.heard frame] ∧ frame.kind = .rcls := by
  obtain ⟨x,hx,rfl⟩ := Option.map_eq_some_iff.mp hv
  rw [goodbyesBy_ne_nil_iff]
  constructor
  · rintro ⟨a,raw,frame,rfl,hf,hk,hp⟩
    obtain ⟨y,hy,rfl,_⟩ := h.registry.connected a p hp
    obtain rfl := Option.some.inj (hx.symm.trans hy)
    refine ⟨decide_eq_true hp,frame,?_,hk⟩
    simp [signs,hf,noted,addr,hx]
  · rintro ⟨hseat,frame,hs,hk⟩
    obtain ⟨a,raw,rfl,hf,ha⟩ := signs_eq_heard hs
    rw [addr,hx] at ha
    obtain rfl := Option.some.inj ha
    exact ⟨_,raw,frame,rfl,hf,hk,of_decide_eq_true hseat⟩

/-- What a connected record is marked with is that its peer has asked to close. -/
theorem make_closing_iff (h : r.Sound) (ht : r.registry.Tidy)
    (hopen : (r.make m).1.closing = false) {v w : Vital} (hv : r.registry.vital p = some v)
    (hw : (r.make m).1.registry.vital p = some w) :
    w.closing = true ↔ v.closing = true ∨ r.goodbyesBy p m ≠ [] := by
  obtain ⟨w',hw',hcare⟩ := make_cares h ht hopen p v hv
  obtain rfl := Option.some.inj (hw'.symm.trans hw)
  rw [goodbyesBy_iff_sign h hv]
  generalize r.signs p m = signs at hcare
  cases hcare with
  | leave hk hs => simp [hk,hs]
  | ignore hd hl => simpa using fun hs hk => absurd (hl hk) (by simp [hs])
  | heed hk hs hc => simp [hk]
  | _ => simp [Vital.join]

/-- The peers of the records that have asked to close are known, as long as the receiver is open. -/
structure Parting (r : Receiver) (p : PeerId) (asked : List Address) : Prop where
  unmade : r.registry.peers[p]? = none → asked = []
  asks : r.closing = false → ∀ v, r.registry.vital p = some v → (v.closing = true ↔ asked ≠ [])

theorem Parting.make {asked : List Address} (hp : r.Parting p asked) (h : r.Sound)
    (ht : r.registry.Tidy) (m : Move) :
    (r.make m).1.Parting p (asked ++ r.goodbyesBy p m) := by
  cases hx : r.registry.peers[p]? with
  | none =>
    have hnobody : r.goodbyesBy p m = [] := by
      by_contra hne
      obtain ⟨a,_,_,_,_,_,hc⟩ := goodbyesBy_ne_nil_iff.mp hne
      obtain ⟨x,hp,_⟩ := h.registry.connected a p hc
      rw [hx] at hp
      cases hp
    have hnone : r.registry.vital p = none := by rw [Registry.vital,hx]; rfl
    rw [hp.unmade hx,hnobody]
    refine ⟨fun _ => rfl,fun _ w hw => ?_⟩
    rw [(make_change h m).enlists h hnone hw]
    simp
  | some x =>
    refine ⟨fun hnone => ?_,fun hopen w hw => ?_⟩
    · rw [unmade_of_make h hnone] at hx
      cases hx
    · have hv := Registry.vital_eq hx
      rw [make_closing_iff h ht hopen hv hw,hp.asks (open_of_make hopen) _ hv]
      simp [Decidable.or_iff_not_imp_left]

/-- As long as a peer is not told how far it has got it gets no further. -/
theorem next_of_untold (h : r.Sound) (ht : r.registry.Tidy) (hb : r.registry.inboxOf p = some b)
    (hn : r.acks ms p = []) :
    ∃ c, (r.play ms).1.registry.inboxOf p = some c ∧ c.next = b.next := by
  induction ms generalizing r b with
  | nil => exact ⟨b,hb,rfl⟩
  | cons m ms ih =>
    rw [acks,tally,List.append_eq_nil_iff] at hn
    have htells := make_tells h ht m p
    rw [hn.1] at htells
    cases htells with
    | nothing hnone _ =>
      obtain ⟨c,hc,hcb⟩ := next_of_accepted h hnone hb
      obtain ⟨d,hd,hdc⟩ := ih (h.make m) ((make_change h m).tidy ht) hc hn.2
      exact ⟨d,hd,hdc.trans hcb⟩

/-- From one frame `f` that tells the peer of the record `p` how far it has got to the next one `g`,
which is sent in the move `m`. -/
inductive Advances (r : Receiver) (p : PeerId) (m : Move) (f g : Frame) : Prop
  | stays (hi : (r.make m).1.registry.inboxOf p = r.registry.inboxOf p)
      (hg : g.fragment = f.fragment)
  | steps {a : Address} {raw : Bytes} {frame : Frame} (hm : m = .event (.datagram a raw))
      (hf : Frame.receive raw = .ok frame) (hk : frame.kind = .data)
      (hp : r.registry.connected.get? a = some p)
      (hu : (r.make m).1.registry.unreadOf p = r.registry.unreadOf p ++ frame.payload)
      (hg : g.fragment = f.fragment + 1)

theorem make_advances (h : r.Sound) (ht : r.registry.Tidy) {f g : Frame}
    (hb : r.registry.inboxOf p = some b) (hf : f.fragment = b.lastAccepted)
    (hg : r.acksBy p m = [g]) : r.Advances p m f g := by
  have htells := make_tells h ht m p
  rw [hg] at htells
  cases htells with
  | greeting _ hb' hi _ =>
    obtain rfl := Option.some.inj (hb'.symm.trans hb)
    exact .stays (hi.trans hb.symm) hf.symm
  | answer _ _ hb' hi hbc _ =>
    obtain rfl := Option.some.inj (hb'.symm.trans hb)
    rcases hbc with rfl | ⟨a,raw,frame,hm,hr,hk,hp,ho⟩
    · exact .stays (hi.trans hb.symm) hf.symm
    · obtain ⟨_,rfl⟩ := Inbox.offer_eq_some_iff.mp ho
      refine .steps hm hr hk hp ?_ ?_
      · rw [Registry.unreadOf_of_inbox hi,Registry.unreadOf_of_inbox hb]
      · rw [hf]
        show _ + 1 - 1 = _ - 1 + 1
        rw [Int32.add_sub_cancel,Int32.sub_add_cancel]

theorem accepted_of_waiting (hp : (a,p) ∈ (after settings ms).registry.pending) :
    (start settings).accepted ms p = [] := by
  have huntouched : (after settings ms).Untouched p ((start settings).accepted ms p) :=
    tally_induct (P := fun t given => t.Untouched p given)
      (fun _ _ m hs ht hb hu => hu.make hs ht hb m) ⟨fun _ => rfl,fun _ _ => rfl⟩ ms
  exact huntouched.waits a hp

/-- Of a connected record it is known whether its peer has asked to close. -/
theorem closing_after (hp : (after settings ms).registry.connected.get? a = some p)
    (hx : (after settings ms).registry.peers[p]? = some x) :
    (after settings ms).closing = false ∧
      (x.closing = true ↔ (start settings).goodbyes ms p ≠ []) := by
  have hopen := (bare_after settings ms).open_of_connected hp
  have hparting : (after settings ms).Parting p ((start settings).goodbyes ms p) :=
    tally_induct (P := fun t asked => t.Parting p asked)
      (fun _ _ m hs ht _ hp => hp.make hs ht m) ⟨fun _ => rfl,fun _ _ hv => by cases hv⟩ ms
  exact ⟨hopen,hparting.asks hopen _ (Registry.vital_eq hx)⟩

/-- What a peer is told is what the inbox of its record says, also when it is accepted. -/
theorem acksBy_after {f : Frame} (hf : f ∈ (after settings ms).acksBy p m) :
    (after settings ms).acksBy p m = [f] ∧
      ∃ b kind, (after settings (ms ++ [m])).registry.inboxOf p = some b ∧
        f = reply kind b.lastAccepted b.window := by
  have htells := make_tells (sound_after settings ms) (tidy_after settings ms) m p
  rw [after_concat]
  generalize (after settings ms).acksBy p m = frames at hf htells
  cases htells with
  | nothing => cases hf
  | @greeting a b hp hb hi =>
    obtain rfl := List.mem_singleton.mp hf
    obtain ⟨initial,_,hkept⟩ := accounts_after hb
    rw [accepted_of_waiting hp] at hkept
    have hfree := hkept.free
    rw [(List.append_eq_nil_iff.mp hkept.conserved).2] at hfree
    refine ⟨rfl,b,.acon,hi,?_⟩
    rw [settings_after,Inbox.window,← hfree]
    rfl
  | @answer a b c kind _ _ _ hi =>
    obtain rfl := List.mem_singleton.mp hf
    exact ⟨rfl,c,kind,hi,rfl⟩

/-- What the peers of a receiver are told after the moves `ms`. -/
structure Receipts (settings : Settings) (ms : List Move) : Prop where
  /-- Data of a connected peer is answered by one frame, unless the peer has asked to close. -/
  answered : ∀ a p raw frame, (after settings ms).registry.connected.get? a = some p →
    Frame.receive raw = .ok frame → frame.kind = .data →
    if (start settings).goodbyes ms p = [] then
      ∃ f, f.kind = .adat ∧ ((after settings ms).react (.datagram a raw)).2 = [.send a f] ∧
        (after settings ms).acksBy p (.event (.datagram a raw)) = [f]
    else (after settings ms).react (.datagram a raw) = (after settings ms,[])
  addressed : ∀ m, ∀ e ∈ acknowledgements ((after settings ms).make m).2,
    ∃ p, ((after settings ms).make m).1.registry.connected.get? e.1 = some p
  /-- A move tells a peer so once at most, and what it says holds after the move. -/
  truthful : ∀ p m, ∀ f ∈ (after settings ms).acksBy p m,
    (after settings ms).acksBy p m = [f] ∧
      ∃ initial, (start settings).proposed (ms ++ [m]) p = [initial] ∧
        f.fragment.toInt =
          (initial.toInt + ((start settings).accepted (ms ++ [m]) p).length).bmod 4294967296 ∧
        f.window.toInt =
          min ((settings.capacity : Int) - ((start settings).accepted (ms ++ [m]) p).flatten.length +
            ((start settings).returned (ms ++ [m]) p).flatten.length) 2147483647
  /-- Who is accepted is told the number it has proposed, and all the room there is. -/
  greeted : ∀ a p m, ((after settings ms).make m).1.registry.connected.get? a = some p →
    (after settings ms).registry.connected.get? a ≠ some p →
    ∃ initial, (start settings).proposed ms p = [initial] ∧
      (after settings ms).acksBy p m = [reply .acon initial (Frame.windowOf settings.capacity)]
  /-- Whatever happens in between, from one frame to the next the number goes up by one if the data
  that is answered was buffered, and stays otherwise. -/
  advances : ∀ p m f more n g, (after settings ms).acksBy p m = [f] →
    (after settings (ms ++ [m])).acks more p = [] →
    ((after settings (ms ++ [m])).play more).1.acksBy p n = [g] →
    ((after settings (ms ++ [m])).play more).1.Advances p n f g

theorem answered_after {raw : Bytes} {frame : Frame}
    (hp : (after settings ms).registry.connected.get? a = some p)
    (hf : Frame.receive raw = .ok frame) (hk : frame.kind = .data) :
    if (start settings).goodbyes ms p = [] then
      ∃ f, f.kind = .adat ∧ ((after settings ms).react (.datagram a raw)).2 = [.send a f] ∧
        (after settings ms).acksBy p (.event (.datagram a raw)) = [f]
    else (after settings ms).react (.datagram a raw) = (after settings ms,[]) := by
  obtain ⟨x,hx,_⟩ := (sound_after settings ms).registry.connected a p hp
  obtain ⟨hopen,hclosing⟩ := closing_after hp hx
  have hreact : (after settings ms).react (.datagram a raw) =
      (after settings ms).onData a frame.fragment frame.payload := onDatagram_data hopen hf hk
  split
  · rename_i hnone
    have hcl : x.closing = false := Bool.eq_false_iff.mpr fun hc => hclosing.mp hc hnone
    have hone : ∀ {t : Receiver} {fragment window : Int32},
        (after settings ms).react (.datagram a raw) =
          (t,[.send a (reply .adat fragment window)]) →
        t.registry.connected = (after settings ms).registry.connected →
        ∃ f, f.kind = .adat ∧ ((after settings ms).react (.datagram a raw)).2 = [.send a f] ∧
          (after settings ms).acksBy p (.event (.datagram a raw)) = [f] := fun he hc =>
      ⟨_,rfl,by rw [he],(acksBy_of_answers (.inr rfl) hp (by rw [make,he,hc])
        (by rw [make,he])).trans (if_pos rfl)⟩
    cases ho : x.inbox.offer frame.fragment frame.payload with
    | none => exact hone (hreact.trans (onData_of_refused hp hx hcl ho)) rfl
    | some inbox => exact hone (hreact.trans (onData_of_taken hp hx hcl ho)) rfl
  · rename_i hsome
    rw [hreact,onData_of_closing hp hx (hclosing.mpr hsome)]

theorem addressed_after {e : Address × Frame}
    (he : e ∈ acknowledgements ((after settings ms).make m).2) :
    ∃ p, ((after settings ms).make m).1.registry.connected.get? e.1 = some p := by
  cases make_speech (sound_after settings ms) (tidy_after settings ms) m with
  | silent ho =>
    rw [ho] at he
    cases he
  | greets hs _ ho =>
    rw [ho] at he
    obtain ⟨⟨a,p⟩,hm,rfl⟩ := List.mem_map.mp he
    exact ⟨p,(hs.connected a p).mpr (.inr hm)⟩
  | @answers a p b c kind hk hp _ _ _ _ hc ho =>
    rw [ho,acknowledgements_answer hk] at he
    obtain rfl := List.mem_singleton.mp he
    exact ⟨p,by rw [hc]; exact hp⟩

theorem greeted_after (hafter : ((after settings ms).make m).1.registry.connected.get? a = some p)
    (hbefore : (after settings ms).registry.connected.get? a ≠ some p) :
    ∃ initial, (start settings).proposed ms p = [initial] ∧
      (after settings ms).acksBy p m = [reply .acon initial (Frame.windowOf settings.capacity)] := by
  have htells := make_tells (sound_after settings ms) (tidy_after settings ms) m p
  generalize (after settings ms).acksBy p m = frames at htells
  cases htells with
  | nothing _ hc => exact absurd (hc a hafter) hbefore
  | answer _ _ _ _ _ hc =>
    rw [hc] at hafter
    exact absurd hafter hbefore
  | @greeting b' b hp hb =>
    obtain ⟨initial,hproposed,hkept⟩ := accounts_after hb
    rw [accepted_of_waiting hp] at hkept
    refine ⟨initial,hproposed,?_⟩
    rw [settings_after,hkept.lastAccepted]
    exact congrArg (fun fragment => [reply .acon fragment _]) (Int32.add_zero initial)

/-- What peers are told is so, and never falls back. -/
theorem receipts_along_play (settings : Settings) (ms : List Move) : Receipts settings ms := by
  refine ⟨fun _ _ _ _ => answered_after,fun _ _ => addressed_after,fun p m f hf => ?_,
    fun _ _ _ => greeted_after,fun p m f more n g hf hmore hg => ?_⟩
  · obtain ⟨hone,b,kind,hb,rfl⟩ := acksBy_after hf
    obtain ⟨initial,hproposed,hkept⟩ := accounts_after hb
    refine ⟨hone,initial,hproposed,?_,?_⟩
    · show b.lastAccepted.toInt = _
      rw [hkept.lastAccepted,Signed.toInt_add_ofNat]
    · show b.window.toInt = _
      have hfree := hkept.free_eq
      rw [Inbox.window,Frame.toInt_windowOf]
      omega
  · have hsound := sound_after settings (ms ++ [m])
    have htidy := tidy_after settings (ms ++ [m])
    have hmem : f ∈ (after settings ms).acksBy p m := by
      rw [hf]
      exact List.mem_singleton.mpr rfl
    obtain ⟨_,b,kind,hb,rfl⟩ := acksBy_after hmem
    obtain ⟨c,hc,hcb⟩ := next_of_untold hsound htidy hb hmore
    refine make_advances (hsound.play more) (Tidy.play htidy hsound more) hc ?_ hg
    show b.lastAccepted = c.lastAccepted
    rw [Inbox.lastAccepted,Inbox.lastAccepted,hcb]

/-- A peer fills two bytes of room, has data refused until one of them is read, asks once more, and
sends on after it has asked to close. -/
def counting (a : Address) : List Move :=
  let data (fragment : Int32) (payload : Bytes) : Move :=
    .event (.datagram a (Frame.encode ⟨.data,fragment,0,payload⟩))
  let ask := Frame.encode ⟨.rcon,2147483646,0,[]⟩
  [.event (.datagram a ask),.event .acceptOne,data 2147483647 [97,98],data (-2147483648) [99],
    .event (.read a 1),.event (.datagram a ask),data (-2147483648) [99],
    .event (.datagram a (Frame.encode ⟨.rcls,0,0,[]⟩)),data (-2147483647) []]

example :
    let a : Address := ⟨.localhost,0,4001⟩
    let r := start ⟨2,.ofMillis 1500,.ofMillis 500,1,true⟩
    r.goodbyes (counting a) 0 = [a] ∧
      (r.acks (counting a) 0).map (fun f => (f.kind,f.fragment,f.window)) =
        [(.acon,2147483646,2),(.adat,2147483647,0),(.adat,2147483647,0),(.acon,2147483647,1),
          (.adat,-2147483648,0)] := by
  decide +kernel

end Receiver
end ReliableTransport
