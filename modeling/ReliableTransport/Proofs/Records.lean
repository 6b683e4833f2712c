import ReliableTransport.Receiver.Engine

/-! What may become of the records of a receiver. An act is one change of the records together with
the frames it sends, the payloads it takes and the bytes it hands out (`Act`). A record stands in one
place at most, what is torn down stands nowhere (`Sound`), and no act loses a byte (`Act.record`). -/
namespace ReliableTransport
namespace Registry

open Receiver (reply)

/-- What a receiver does that can be told from outside. -/
inductive Deed
  | sent (dest : Address) (frame : Frame)
  | took (p : PeerId) (payload : Bytes)
  | handed (p : PeerId) (data : Bytes)
  | ended (a : Address)
  deriving DecidableEq

def takings (p : PeerId) (ds : List Deed) : List Bytes := ds.filterMap fun
  | .took q payload => if q = p then some payload else none
  | _ => none

/-- The bytes of a record that were handed out, a piece for each read. -/
def handings (p : PeerId) (ds : List Deed) : List Bytes := ds.filterMap fun
  | .handed q data => if q = p then some data else none
  | _ => none

@[simp] theorem takings_nil (p : PeerId) : takings p [] = [] := rfl

@[simp] theorem handings_nil (p : PeerId) : handings p [] = [] := rfl

@[simp] theorem takings_append (p : PeerId) (ds es : List Deed) :
    takings p (ds ++ es) = takings p ds ++ takings p es :=
  List.filterMap_append

@[simp] theorem handings_append (p : PeerId) (ds es : List Deed) :
    handings p (ds ++ es) = handings p ds ++ handings p es :=
  List.filterMap_append

@[simp] theorem takings_cons_sent (p : PeerId) (a : Address) (frame : Frame) (ds : List Deed) :
    takings p (.sent a frame :: ds) = takings p ds := rfl

@[simp] theorem handings_cons_sent (p : PeerId) (a : Address) (frame : Frame) (ds : List Deed) :
    handings p (.sent a frame :: ds) = handings p ds := rfl

@[simp] theorem takings_cons_took (p q : PeerId) (payload : Bytes) (ds : List Deed) :
    takings p (.took q payload :: ds) = (if q = p then [payload] else []) ++ takings p ds := by
  by_cases h : q = p <;> simp [takings,h]

@[simp] theorem handings_cons_took (p q : PeerId) (payload : Bytes) (ds : List Deed) :
    handings p (.took q payload :: ds) = handings p ds := rfl

@[simp] theorem takings_cons_handed (p q : PeerId) (data : Bytes) (ds : List Deed) :
    takings p (.handed q data :: ds) = takings p ds := rfl

@[simp] theorem handings_cons_handed (p q : PeerId) (data : Bytes) (ds : List Deed) :
    handings p (.handed q data :: ds) = (if q = p then [data] else []) ++ handings p ds := by
  by_cases h : q = p <;> simp [handings,h]

@[simp] theorem takings_cons_ended (p : PeerId) (a : Address) (ds : List Deed) :
    takings p (.ended a :: ds) = takings p ds := rfl

@[simp] theorem handings_cons_ended (p : PeerId) (a : Address) (ds : List Deed) :
    handings p (.ended a :: ds) = handings p ds := rfl

/-- The records after all that stand in one place were taken out and torn down. -/
def shut (r : Registry) : Registry :=
  r.drain.1.2.foldl (fun r p => r.modify p .teardown) r.drain.2

def fell (r : Registry) (p : PeerId) (a : Address) : Registry :=
  (if r.connected.get? a = some p then
    match r.retire a with
    | some (_,r) => r
    | none => r
  else r).modify p .teardown

/-- One change of the records of a receiver, given the frames that may reach it, the room and the
patience it has for a peer, and whether it is being closed. -/
inductive Act (hears : Address → Frame → Prop) (capacity : Nat) (threshold : Duration)
    (shutting : Prop) : Registry → List Deed → Registry → Prop
  | enlist {r : Registry} {a : Address} {frame : Frame} (hf : hears a frame)
      (hk : frame.kind = .rcon) (hc : r.connected.get? a = none) (hp : r.pending.get? a = none) :
      Act hears capacity threshold shutting r []
        ((r.register (.start a frame.fragment capacity threshold)).2.enqueue a r.peers.length)
  | greet {r s : Registry} {p : PeerId} {x : Peer} (ha : r.accept = some (p,s))
      (hx : s.peers[p]? = some x) :
      Act hears capacity threshold shutting r
        [.sent x.addr (reply .acon x.inbox.lastAccepted (Frame.windowOf capacity))]
        (s.modify p fun peer => { peer with checking := true })
  | again {r : Registry} {a : Address} {frame : Frame} {p : PeerId} {x : Peer}
      (hf : hears a frame) (hk : frame.kind = .rcon) (hc : r.connected.get? a = some p)
      (hx : r.peers[p]? = some x) :
      Act hears capacity threshold shutting r
        [.sent a (reply .acon x.inbox.lastAccepted x.inbox.window)] r
  | take {r : Registry} {a : Address} {frame : Frame} {p : PeerId} {x : Peer} {inbox : Inbox}
      (hf : hears a frame) (hk : frame.kind = .data) (hc : r.connected.get? a = some p)
      (hx : r.peers[p]? = some x) (ho : x.closing = false)
      (hi : x.inbox.offer frame.fragment frame.payload = some inbox) :
      Act hears capacity threshold shutting r
        [.took p frame.payload,.sent a (reply .adat inbox.lastAccepted inbox.window)]
        (r.modify p fun peer => { peer with inbox, silence := peer.silence.reset })
  | refuse {r : Registry} {a : Address} {frame : Frame} {p : PeerId} {x : Peer}
      (hf : hears a frame) (hk : frame.kind = .data) (hc : r.connected.get? a = some p)
      (hx : r.peers[p]? = some x) (ho : x.closing = false) :
      Act hears capacity threshold shutting r
        [.sent a (reply .adat x.inbox.lastAccepted x.inbox.window)]
        (r.modify p fun peer => { peer with
          inbox := x.inbox
          silence := peer.silence.reset })
  | leave {r : Registry} {a : Address} {p : PeerId} (hc : r.connected.get? a = some p) :
      Act hears capacity threshold shutting r [.sent a (reply .acls 0 0)]
        (r.modify p .requestClose)
  | drop {r s : Registry} {a : Address} {p : PeerId} (h : r.removePending a = some (p,s)) :
      Act hears capacity threshold shutting r [] s
  | tick {r : Registry} (p : PeerId) (silence : Silence) :
      Act hears capacity threshold shutting r [] (r.modify p fun peer => { peer with silence })
  | fall {r : Registry} {p : PeerId} {x : Peer} (hx : r.peers[p]? = some x)
      (hc : x.checking = true) : Act hears capacity threshold shutting r [] (r.fell p x.addr)
  | shut {r : Registry} (h : shutting) : Act hears capacity threshold shutting r [] r.shut
  | read {r : Registry} {p : PeerId} {x : Peer} (room : Nat) (hx : r.peers[p]? = some x) :
      Act hears capacity threshold shutting r [.handed p (x.inbox.read room).1]
        (r.modify p fun peer => { peer with inbox := (x.inbox.read room).2 })
  | finish {r : Registry} {p : PeerId} {x : Peer} (hx : r.peers[p]? = some x)
      (hc : x.closed = true) (hu : x.inbox.unread = []) :
      Act hears capacity threshold shutting r [.ended x.addr] (r.forgetDrained p)
  | marked {r : Registry} {a : Address} (h : r.retired.get? a = some .drained) :
      Act hears capacity threshold shutting r [.ended a] r
  | cut {r : Registry} (a : Address) (h : shutting) :
      Act hears capacity threshold shutting r [.ended a] r

inductive Acts (hears : Address → Frame → Prop) (capacity : Nat) (threshold : Duration)
    (shutting : Prop) : Registry → List Deed → Registry → Prop
  | done {r : Registry} : Acts hears capacity threshold shutting r [] r
  | next {r s t : Registry} {ds es : List Deed}
      (h : Act hears capacity threshold shutting r ds s)
      (hs : Acts hears capacity threshold shutting s es t) :
      Acts hears capacity threshold shutting r (ds ++ es) t

section

variable {hears : Address → Frame → Prop} {capacity : Nat} {threshold : Duration}
  {shutting : Prop} {r s t : Registry} {ds es : List Deed}

theorem Act.once (h : Act hears capacity threshold shutting r ds s) :
    Acts hears capacity threshold shutting r ds s := by
  have hs := Acts.next h .done
  rwa [List.append_nil] at hs

theorem Acts.trans (h : Acts hears capacity threshold shutting r ds s)
    (hs : Acts hears capacity threshold shutting s es t) :
    Acts hears capacity threshold shutting r (ds ++ es) t := by
  induction h with
  | done => exact hs
  | next h _ ih =>
    rw [List.append_assoc]
    exact .next h (ih hs)

theorem Act.mono {more : Address → Frame → Prop} (h : Act hears capacity threshold shutting r ds s)
    (hm : ∀ a frame, hears a frame → more a frame) : Act more capacity threshold shutting r ds s := by
  cases h with
  | enlist hf hk hc hp => exact .enlist (hm _ _ hf) hk hc hp
  | greet ha hx => exact .greet ha hx
  | again hf hk hc hx => exact .again (hm _ _ hf) hk hc hx
  | take hf hk hc hx ho hi => exact .take (hm _ _ hf) hk hc hx ho hi
  | refuse hf hk hc hx ho => exact .refuse (hm _ _ hf) hk hc hx ho
  | leave hc => exact .leave hc
  | drop h => exact .drop h
  | tick p silence => exact .tick p silence
  | fall hx hc => exact .fall hx hc
  | shut h => exact .shut h
  | read room hx => exact .read room hx
  | finish hx hc hu => exact .finish hx hc hu
  | marked h => exact .marked h
  | cut a h => exact .cut a h

theorem Acts.mono {more : Address → Frame → Prop}
    (h : Acts hears capacity threshold shutting r ds s)
    (hm : ∀ a frame, hears a frame → more a frame) :
    Acts more capacity threshold shutting r ds s := by
  induction h with
  | done => exact .done
  | next h _ ih => exact .next (h.mono hm) ih

end

/-- What always holds of the records of a receiver. -/
structure Sound (r : Registry) : Prop where
  connected : ∀ a p, r.connected.get? a = some p →
    ∃ x, r.peers[p]? = some x ∧ x.addr = a ∧ x.closed = false
  pending : ∀ a p, (a,p) ∈ r.pending →
    ∃ x, r.peers[p]? = some x ∧ x.addr = a ∧ x.closed = false ∧ x.checking = false
  nodup : (r.pending.map (·.2)).Nodup
  apart : ∀ a b p, (a,p) ∈ r.pending → r.connected.get? b ≠ some p
  unread : ∀ a p, r.retired.get? a = some (.unread p) →
    ∃ x, r.peers[p]? = some x ∧ x.addr = a ∧ x.closed = true
  drained : ∀ a, r.retired.get? a = some .drained →
    ∃ (p : PeerId) (x : Peer), r.peers[p]? = some x ∧ x.addr = a ∧ x.closed = true ∧
      x.inbox.unread = []

theorem sound_empty (retiredCapacity : Nat) : (empty retiredCapacity).Sound where
  connected := by simp [empty]
  pending := by simp [empty]
  nodup := by simp [empty]
  apart := by simp [empty]
  unread := by simp [empty]
  drained := by simp [empty]

variable {r s : Registry}

theorem peers_modify_self {p : PeerId} {x : Peer} {f : Peer → Peer}
    (hx : r.peers[p]? = some x) : (r.modify p f).peers[p]? = some (f x) := by
  simp [modify,hx]

theorem peers_modify_ne {p q : PeerId} (f : Peer → Peer) (h : p ≠ q) :
    (r.modify p f).peers[q]? = r.peers[q]? := by
  simp only [modify]
  rw [List.getElem?_modify_ne _ _ h]

theorem of_peers_modify {p q : PeerId} {f : Peer → Peer} {y : Peer}
    (hy : (r.modify p f).peers[q]? = some y) :
    ∃ x, r.peers[q]? = some x ∧ y = if p = q then f x else x := by
  by_cases h : p = q
  · subst h
    simp only [modify,List.getElem?_modify_eq] at hy
    obtain ⟨x,hx,rfl⟩ := Option.map_eq_some_iff.mp hy
    exact ⟨x,hx,by simp⟩
  · rw [peers_modify_ne f h] at hy
    exact ⟨y,hy,by rw [if_neg h]⟩

def home (r : Registry) (p : PeerId) : Option Address := (r.peers[p]?).map (·.addr)

theorem home_eq_some_iff {p : PeerId} {a : Address} :
    r.home p = some a ↔ ∃ x, r.peers[p]? = some x ∧ x.addr = a :=
  Option.map_eq_some_iff

theorem home_modify {f : Peer → Peer} (hf : ∀ x, (f x).addr = x.addr) (p q : PeerId) :
    (r.modify p f).home q = r.home q := by
  by_cases h : p = q
  · subst h
    cases hx : r.peers[p]? with
    | none => simp [home,modify,hx]
    | some x => simp [home,modify,hx,hf]
  · rw [home,peers_modify_ne f h,home]

structure Settled (x y : Peer) : Prop where
  addr : y.addr = x.addr
  closed : y.closed = x.closed
  read : x.closed = true → x.inbox.unread = [] → y.inbox.unread = []

theorem Sound.modify (h : r.Sound) (p : PeerId) {f : Peer → Peer}
    (hf : ∀ x, r.peers[p]? = some x → Settled x (f x))
    (hc : ∀ x a, r.peers[p]? = some x → (a,p) ∈ r.pending → (f x).checking = x.checking) :
    (r.modify p f).Sound := by
  have hat : ∀ (q : PeerId) (x : Peer), r.peers[q]? = some x →
      ∃ y, (r.modify p f).peers[q]? = some y ∧ Settled x y ∧
        ∀ a, (a,q) ∈ r.pending → y.checking = x.checking := by
    intro q x hx
    by_cases hpq : p = q
    · subst hpq
      exact ⟨f x,peers_modify_self hx,hf x hx,fun a ha => hc x a hx ha⟩
    · exact ⟨x,by rw [peers_modify_ne f hpq,hx],⟨rfl,rfl,fun _ hu => hu⟩,fun _ _ => rfl⟩
  exact {
    connected := by
      intro a q hq
      obtain ⟨x,hx,ha,hcl⟩ := h.connected a q hq
      obtain ⟨y,hy,hs,_⟩ := hat q x hx
      exact ⟨y,hy,by rw [hs.addr,ha],by rw [hs.closed,hcl]⟩
    pending := by
      intro a q hq
      obtain ⟨x,hx,ha,hcl,hch⟩ := h.pending a q hq
      obtain ⟨y,hy,hs,hk⟩ := hat q x hx
      exact ⟨y,hy,by rw [hs.addr,ha],by rw [hs.closed,hcl],by rw [hk a hq,hch]⟩
    nodup := h.nodup
    apart := h.apart
    unread := by
      intro a q hq
      obtain ⟨x,hx,ha,hcl⟩ := h.unread a q hq
      obtain ⟨y,hy,hs,_⟩ := hat q x hx
      exact ⟨y,hy,by rw [hs.addr,ha],by rw [hs.closed,hcl]⟩
    drained := by
      intro a ha
      obtain ⟨q,x,hx,had,hcl,hu⟩ := h.drained a ha
      obtain ⟨y,hy,hs,_⟩ := hat q x hx
      exact ⟨q,y,hy,by rw [hs.addr,had],by rw [hs.closed,hcl],hs.read hcl hu⟩ }

theorem Sound.fewer (h : r.Sound) (hp : s.peers = r.peers)
    (hc : ∀ a p, s.connected.get? a = some p → r.connected.get? a = some p)
    (hq : s.pending.Sublist r.pending)
    (hr : ∀ a v, s.retired.get? a = some v → r.retired.get? a = some v) : s.Sound where
  connected := by
    rw [hp]
    exact fun a p ha => h.connected a p (hc a p ha)
  pending := by
    rw [hp]
    exact fun a p ha => h.pending a p (hq.subset ha)
  nodup := h.nodup.sublist (hq.map _)
  apart := fun a b p ha hb => h.apart a b p (hq.subset ha) (hc b p hb)
  unread := by
    rw [hp]
    exact fun a p ha => h.unread a p (hr a _ ha)
  drained := by
    rw [hp]
    exact fun a ha => h.drained a (hr a _ ha)

@[simp] theorem peers_enqueue (r : Registry) (a : Address) (p : PeerId) :
    (r.enqueue a p).peers = r.peers := by
  simp only [enqueue]
  split
  · rfl
  · rfl

@[simp] theorem home_enqueue (r : Registry) (a : Address) (p q : PeerId) :
    (r.enqueue a p).home q = r.home q := by
  rw [home,peers_enqueue,home]

@[simp] theorem connected_enqueue (r : Registry) (a : Address) (p : PeerId) :
    (r.enqueue a p).connected = r.connected := by
  simp only [enqueue]
  split
  · rfl
  · rfl

@[simp] theorem pending_enqueue (r : Registry) (a : Address) (p : PeerId) :
    (r.enqueue a p).pending = r.pending ++ [(a,p)] := by
  simp only [enqueue]
  split
  · rfl
  · rfl

@[simp] theorem retiredCapacity_enqueue (r : Registry) (a : Address) (p : PeerId) :
    (r.enqueue a p).retiredCapacity = r.retiredCapacity := by
  simp only [enqueue]
  split
  · rfl
  · rfl

theorem retired_enqueue_eq (r : Registry) (a : Address) (p : PeerId) :
    (r.enqueue a p).retired = r.retired.erase a := by
  unfold enqueue
  split
  · rfl
  · rename_i hno
    exact (Dict.erase_of_not_mem fun hm => hno (Dict.mem_keys_iff.mp hm)).symm

theorem retired_enqueue {a b : Address} {p : PeerId} {v : Retired}
    (h : (r.enqueue a p).retired.get? b = some v) : b ≠ a ∧ r.retired.get? b = some v := by
  rw [retired_enqueue_eq,Dict.get?_erase] at h
  split at h
  · cases h
  · exact ⟨‹_›,h⟩

theorem retiredOrder_enqueue (r : Registry) (a : Address) (p : PeerId) :
    (r.enqueue a p).retiredOrder.Sublist r.retiredOrder := by
  unfold enqueue
  split
  · exact List.filter_sublist
  · exact .refl _

theorem mem_retiredOrder_enqueue {a b : Address} (hb : b ∈ r.retiredOrder) (hne : b ≠ a)
    (p : PeerId) : b ∈ (r.enqueue a p).retiredOrder := by
  unfold enqueue
  split
  · exact List.mem_filter.mpr ⟨hb,decide_eq_true hne⟩
  · exact hb

theorem Sound.enlist (h : r.Sound) (a : Address) (initial : Int32) (capacity : Nat)
    (threshold : Duration) :
    ((r.register (.start a initial capacity threshold)).2.enqueue a r.peers.length).Sound := by
  have hat : ∀ (q : PeerId) (x : Peer), r.peers[q]? = some x →
      (r.peers ++ [Peer.start a initial capacity threshold])[q]? = some x ∧
        q < r.peers.length := by
    intro q x hx
    have hlt := (List.getElem?_eq_some_iff.mp hx).1
    exact ⟨by rw [List.getElem?_append_left hlt,hx],hlt⟩
  exact {
    connected := by
      intro b q hq
      rw [connected_enqueue] at hq
      obtain ⟨x,hx,hb⟩ := h.connected b q hq
      exact ⟨x,by rw [peers_enqueue]; exact (hat q x hx).1,hb⟩
    pending := by
      intro b q hq
      rw [peers_enqueue]
      rw [pending_enqueue] at hq
      rcases List.mem_append.mp hq with hq | hq
      · obtain ⟨x,hx,hb⟩ := h.pending b q hq
        exact ⟨x,(hat q x hx).1,hb⟩
      · simp only [List.mem_singleton,Prod.mk.injEq] at hq
        obtain ⟨rfl,rfl⟩ := hq
        exact ⟨Peer.start b initial capacity threshold,by simp [register],rfl,rfl,rfl⟩
    nodup := by
      rw [pending_enqueue]
      simp only [List.map_append,List.map_cons,List.map_nil]
      refine List.nodup_append.mpr ⟨h.nodup,by simp,?_⟩
      intro q hq j hj
      obtain ⟨⟨b,q⟩,hmem,rfl⟩ := List.mem_map.mp hq
      obtain ⟨x,hx,_⟩ := h.pending b q hmem
      rw [List.mem_singleton.mp hj]
      exact Nat.ne_of_lt (hat q x hx).2
    apart := by
      intro b e q hq hc
      rw [connected_enqueue] at hc
      rw [pending_enqueue] at hq
      obtain ⟨x,hx,_⟩ := h.connected e q hc
      rcases List.mem_append.mp hq with hq | hq
      · exact h.apart b e q hq hc
      · simp only [List.mem_singleton,Prod.mk.injEq] at hq
        exact Nat.ne_of_lt (hat q x hx).2 hq.2
    unread := by
      intro b q hq
      obtain ⟨x,hx,hb⟩ := h.unread b q (retired_enqueue hq).2
      exact ⟨x,by rw [peers_enqueue]; exact (hat q x hx).1,hb⟩
    drained := by
      intro b hb
      obtain ⟨q,x,hx,hd⟩ := h.drained b (retired_enqueue hb).2
      exact ⟨q,x,by rw [peers_enqueue]; exact (hat q x hx).1,hd⟩ }

theorem accept_eq_some_iff {p : PeerId} :
    r.accept = some (p,s) ↔ ∃ a rest, r.pending = (a,p) :: rest ∧
      s = { r.modify p fun peer => { peer with silence := peer.silence.reset } with
        pending := rest
        connected := r.connected.insert a p } := by
  unfold accept
  cases hp : r.pending with
  | nil => simp
  | cons e rest =>
    obtain ⟨a,q⟩ := e
    constructor
    · intro h
      simp only [Option.some.injEq,Prod.mk.injEq] at h
      obtain ⟨rfl,rfl⟩ := h
      exact ⟨a,rest,rfl,rfl⟩
    · rintro ⟨b,rest',hl,rfl⟩
      simp only [List.cons.injEq,Prod.mk.injEq] at hl
      obtain ⟨⟨rfl,rfl⟩,rfl⟩ := hl
      rfl

theorem Sound.accept (h : r.Sound) {p : PeerId} (ha : r.accept = some (p,s)) : s.Sound := by
  obtain ⟨a,rest,hpend,rfl⟩ := accept_eq_some_iff.mp ha
  have hm := h.modify p (f := fun peer => { peer with silence := peer.silence.reset })
    (fun _ _ => ⟨rfl,rfl,fun _ hu => hu⟩) fun _ _ _ _ => rfl
  have hsub : rest.Sublist r.pending := by
    rw [hpend]
    exact List.sublist_cons_self _ _
  have hnd := h.nodup
  rw [hpend,List.map_cons,List.nodup_cons] at hnd
  exact {
    connected := by
      intro b q hq
      simp only [Dict.get?_insert] at hq
      split at hq
      · rename_i hb
        obtain rfl := Option.some.inj hq
        have hmem : (a,p) ∈ r.pending := by
          rw [hpend]
          exact List.mem_cons_self
        obtain ⟨x,hx,had,hcl,_⟩ := hm.pending a p hmem
        exact ⟨x,hx,by rw [had,hb],hcl⟩
      · exact hm.connected b q hq
    pending := fun b q hq => hm.pending b q (hsub.subset hq)
    nodup := hnd.2
    apart := by
      intro b e q hq hc
      simp only [Dict.get?_insert] at hc
      split at hc
      · obtain rfl := Option.some.inj hc
        exact hnd.1 (List.mem_map.mpr ⟨(b,p),hq,rfl⟩)
      · exact h.apart b e q (hsub.subset hq) hc
    unread := hm.unread
    drained := hm.drained }

theorem not_mem_pending_of_accept (h : r.Sound) {p : PeerId} (ha : r.accept = some (p,s))
    (a : Address) : (a,p) ∉ s.pending := by
  obtain ⟨b,rest,hpend,rfl⟩ := accept_eq_some_iff.mp ha
  have hnd := h.nodup
  rw [hpend,List.map_cons,List.nodup_cons] at hnd
  exact fun hm => hnd.1 (List.mem_map.mpr ⟨(a,p),hm,rfl⟩)

theorem removePending_eq_some {a : Address} {p : PeerId} (h : r.removePending a = some (p,s)) :
    s = { r with pending := r.pending.eraseP fun e => e.1 = a } := by
  unfold removePending at h
  split at h
  · cases h
  · simp only [Option.some.injEq,Prod.mk.injEq] at h
    exact h.2.symm

theorem Sound.drop (h : r.Sound) {a : Address} {p : PeerId}
    (hd : r.removePending a = some (p,s)) : s.Sound := by
  rw [removePending_eq_some hd]
  exact h.fewer rfl (fun _ _ hc => hc) List.eraseP_sublist fun _ _ hr => hr

def relic (r : Registry) (p : PeerId) : Retired :=
  if (r.peers[p]?).any fun peer => !peer.inbox.unread.isEmpty then .unread p else .drained

theorem relic_eq_unread {p q : PeerId} (h : r.relic p = .unread q) : q = p := by
  unfold relic at h
  split at h
  · exact (Retired.unread.inj h).symm
  · cases h

theorem relic_eq_drained {p : PeerId} {x : Peer} (hx : r.peers[p]? = some x)
    (h : r.relic p = .drained) : x.inbox.unread = [] := by
  unfold relic at h
  split at h
  · cases h
  · rename_i hu
    simpa [hx] using hu

theorem retire_eq {a : Address} {p : PeerId} (h : r.connected.get? a = some p) :
    ∃ s, r.retire a = some (p,s) ∧ s.peers = r.peers ∧ s.pending = r.pending ∧
      s.connected = r.connected.erase a ∧
      ∀ b v, s.retired.get? b = some v → (b = a ∧ v = r.relic p) ∨ r.retired.get? b = some v := by
  let t : Registry := { r with
    connected := r.connected.erase a
    retired := r.retired.insert a (r.relic p)
    retiredOrder := r.retiredOrder ++ [a] }
  refine ⟨t.evict,by rw [retire,h]; rfl,rfl,rfl,rfl,?_⟩
  intro b v hb
  simp only [evict,Dict.get?_eraseAll] at hb
  split at hb
  · cases hb
  · rw [Dict.get?_insert] at hb
    split at hb
    · exact .inl ⟨‹_›,(Option.some.inj hb).symm⟩
    · exact .inr hb

theorem fell_eq (r : Registry) (p : PeerId) (a : Address) :
    ∃ s : Registry, r.fell p a = s.modify p .teardown ∧ s.peers = r.peers ∧
      s.pending = r.pending ∧
      (∀ b q, s.connected.get? b = some q → r.connected.get? b = some q ∧ (b = a → q ≠ p)) ∧
      ∀ b v, s.retired.get? b = some v →
        (b = a ∧ v = r.relic p ∧ r.connected.get? a = some p) ∨ r.retired.get? b = some v := by
  unfold fell
  by_cases hc : r.connected.get? a = some p
  · obtain ⟨s,hs,hp,hq,hconn,hret⟩ := retire_eq hc
    refine ⟨s,by rw [if_pos hc,hs],hp,hq,?_,?_⟩
    · intro b q hb
      rw [hconn,Dict.get?_erase] at hb
      split at hb
      · cases hb
      · rename_i hne
        exact ⟨hb,fun he => absurd he hne⟩
    · intro b v hb
      rcases hret b v hb with ⟨h₁,h₂⟩ | h
      · exact .inl ⟨h₁,h₂,hc⟩
      · exact .inr h
  · refine ⟨r,by rw [if_neg hc],rfl,rfl,?_,fun _ _ hb => .inr hb⟩
    intro b q hb
    refine ⟨hb,?_⟩
    rintro rfl rfl
    exact hc hb

theorem Sound.fell (h : r.Sound) {p : PeerId} {x : Peer} (hx : r.peers[p]? = some x)
    (hch : x.checking = true) : (r.fell p x.addr).Sound := by
  obtain ⟨s,he,hpeers,hpend,hconn,hret⟩ := fell_eq r p x.addr
  rw [he]
  have hne : ∀ (q : PeerId) (y : Peer), r.peers[q]? = some y → p ≠ q →
      (s.modify p .teardown).peers[q]? = some y := by
    intro q y hy hpq
    rw [peers_modify_ne _ hpq,hpeers,hy]
  have hself : (s.modify p .teardown).peers[p]? = some x.teardown :=
    peers_modify_self (by rw [hpeers,hx])
  have hout : ∀ a, (a,p) ∉ r.pending := by
    intro a hm
    obtain ⟨y,hy,_,_,hk⟩ := h.pending a p hm
    rw [hx] at hy
    obtain rfl := Option.some.inj hy
    rw [hch] at hk
    cases hk
  have hgone : ∀ a, s.connected.get? a ≠ some p := by
    intro a hc
    obtain ⟨hc,hna⟩ := hconn a p hc
    obtain ⟨y,hy,ha,_⟩ := h.connected a p hc
    rw [hx] at hy
    obtain rfl := Option.some.inj hy
    exact hna ha.symm rfl
  exact {
    connected := by
      intro a q hq
      obtain ⟨y,hy,hs⟩ := h.connected a q (hconn a q hq).1
      refine ⟨y,hne q y hy ?_,hs⟩
      rintro rfl
      exact hgone a hq
    pending := by
      intro a q hq
      have hq : (a,q) ∈ r.pending := hpend ▸ hq
      obtain ⟨y,hy,hs⟩ := h.pending a q hq
      refine ⟨y,hne q y hy ?_,hs⟩
      rintro rfl
      exact hout a hq
    nodup := by
      have hnd := h.nodup
      rw [← hpend] at hnd
      exact hnd
    apart := by
      intro a b q hq hc
      exact h.apart a b q (hpend ▸ hq) (hconn b q hc).1
    unread := by
      intro a q hq
      rcases hret a _ hq with ⟨rfl,hv,hc⟩ | hq
      · obtain rfl := relic_eq_unread hv.symm
        exact ⟨x.teardown,hself,rfl,rfl⟩
      · obtain ⟨y,hy,hs⟩ := h.unread a q hq
        by_cases hpq : p = q
        · subst hpq
          rw [hx] at hy
          obtain rfl := Option.some.inj hy
          exact ⟨x.teardown,hself,hs.1,rfl⟩
        · exact ⟨y,hne q y hy hpq,hs⟩
    drained := by
      intro a ha
      rcases hret a _ ha with ⟨rfl,hv,hc⟩ | ha
      · have hread := relic_eq_drained hx hv.symm
        exact ⟨p,x.teardown,hself,rfl,rfl,hread⟩
      · obtain ⟨q,y,hy,had,hcl,hu⟩ := h.drained a ha
        by_cases hpq : p = q
        · subst hpq
          rw [hx] at hy
          obtain rfl := Option.some.inj hy
          exact ⟨p,x.teardown,hself,had,rfl,hu⟩
        · exact ⟨q,y,hne q y hy hpq,had,hcl,hu⟩ }

theorem foldl_modify_places (ps : List PeerId) (f : Peer → Peer) (r : Registry) :
    (ps.foldl (fun r p => r.modify p f) r).connected = r.connected ∧
      (ps.foldl (fun r p => r.modify p f) r).pending = r.pending ∧
      (ps.foldl (fun r p => r.modify p f) r).retired = r.retired := by
  induction ps generalizing r with
  | nil => exact ⟨rfl,rfl,rfl⟩
  | cons p ps ih => exact ih (r.modify p f)

theorem sound_shut (r : Registry) : r.shut.Sound := by
  obtain ⟨hc,hp,hr⟩ := foldl_modify_places r.drain.1.2 .teardown r.drain.2
  have hc' : r.shut.connected = [] := hc
  have hp' : r.shut.pending = [] := hp
  have hr' : r.shut.retired = [] := hr
  exact {
    connected := by simp [hc']
    pending := by simp [hp']
    nodup := by simp [hp']
    apart := by simp [hp']
    unread := by simp [hr']
    drained := by simp [hr'] }

theorem forgetDrained_eq (r : Registry) (p : PeerId) :
    ∃ marks, r.forgetDrained p = { r with retired := marks } ∧
      (r.retired.keys.Nodup → marks.keys.Nodup) ∧
      ∀ a, marks.get? a =
        if r.home p = some a ∧ r.retired.get? a = some (.unread p) then some .drained
        else r.retired.get? a := by
  unfold forgetDrained
  split
  · rename_i hx
    exact ⟨r.retired,rfl,id,fun a => by simp [home,hx]⟩
  · rename_i x hx
    split
    · rename_i hu
      refine ⟨_,rfl,fun hnd => Dict.nodup_insert hnd _ _,fun a => ?_⟩
      rw [Dict.get?_insert]
      by_cases ha : a = x.addr
      · simp [home,hx,ha,hu]
      · simp [home,hx,ha,Ne.symm ha]
    · rename_i hu
      refine ⟨r.retired,rfl,id,fun a => ?_⟩
      by_cases ha : x.addr = a
      · simp [← ha,hu]
      · simp [home,hx,ha]

theorem peers_forgetDrained (r : Registry) (p : PeerId) : (r.forgetDrained p).peers = r.peers := by
  obtain ⟨marks,heq,_⟩ := forgetDrained_eq r p
  rw [heq]

theorem pending_forgetDrained (r : Registry) (p : PeerId) :
    (r.forgetDrained p).pending = r.pending := by
  obtain ⟨marks,heq,_⟩ := forgetDrained_eq r p
  rw [heq]

theorem connected_forgetDrained (r : Registry) (p : PeerId) :
    (r.forgetDrained p).connected = r.connected := by
  obtain ⟨marks,heq,_⟩ := forgetDrained_eq r p
  rw [heq]

theorem retiredOrder_forgetDrained (r : Registry) (p : PeerId) :
    (r.forgetDrained p).retiredOrder = r.retiredOrder := by
  obtain ⟨marks,heq,_⟩ := forgetDrained_eq r p
  rw [heq]

theorem retiredCapacity_forgetDrained (r : Registry) (p : PeerId) :
    (r.forgetDrained p).retiredCapacity = r.retiredCapacity := by
  obtain ⟨marks,heq,_⟩ := forgetDrained_eq r p
  rw [heq]

theorem retired_forgetDrained {p : PeerId} {a : Address} {v : Retired}
    (h : (r.forgetDrained p).retired.get? a = some v) :
    (r.home p = some a ∧ r.retired.get? a = some (.unread p) ∧ v = .drained) ∨
      r.retired.get? a = some v := by
  obtain ⟨marks,heq,_,hmarks⟩ := forgetDrained_eq r p
  have h : marks.get? a = some v := by rwa [heq] at h
  rw [hmarks] at h
  split at h
  · rename_i hown
    exact .inl ⟨hown.1,hown.2,(Option.some.inj h).symm⟩
  · exact .inr h

theorem mem_keys_forgetDrained {p : PeerId} {a : Address} :
    a ∈ (r.forgetDrained p).retired.keys ↔ a ∈ r.retired.keys := by
  obtain ⟨marks,heq,_,hmarks⟩ := forgetDrained_eq r p
  rw [heq]
  show a ∈ marks.keys ↔ _
  rw [Dict.mem_keys_iff,Dict.mem_keys_iff,hmarks]
  split
  · rename_i hown
    simp [hown.2]
  · rfl

theorem Sound.forget (h : r.Sound) {p : PeerId} {x : Peer} (hx : r.peers[p]? = some x)
    (hc : x.closed = true) (hu : x.inbox.unread = []) : (r.forgetDrained p).Sound where
  connected := by
    rw [connected_forgetDrained,peers_forgetDrained]
    exact h.connected
  pending := by
    rw [pending_forgetDrained,peers_forgetDrained]
    exact h.pending
  nodup := by
    rw [pending_forgetDrained]
    exact h.nodup
  apart := by
    rw [pending_forgetDrained,connected_forgetDrained]
    exact h.apart
  unread := by
    rw [peers_forgetDrained]
    intro a q ha
    rcases retired_forgetDrained ha with ⟨_,_,hv⟩ | ha
    · cases hv
    · exact h.unread a q ha
  drained := by
    rw [peers_forgetDrained]
    intro a ha
    rcases retired_forgetDrained ha with ⟨hhome,_,_⟩ | ha
    · obtain ⟨y,hy,hadd⟩ := home_eq_some_iff.mp hhome
      obtain rfl := Option.some.inj (hy.symm.trans hx)
      exact ⟨p,y,hy,hadd,hc,hu⟩
    · exact h.drained a ha

theorem Act.sound {hears : Address → Frame → Prop} {capacity : Nat} {threshold : Duration}
    {shutting : Prop} {ds : List Deed} (ha : Act hears capacity threshold shutting r ds s)
    (h : r.Sound) : s.Sound := by
  have hsame : ∀ (p : PeerId) (f : Peer → Peer), (∀ x, (f x).addr = x.addr ∧
      (f x).closed = x.closed ∧ (f x).inbox = x.inbox ∧ (f x).checking = x.checking) →
      (r.modify p f).Sound := by
    intro p f hf
    refine h.modify p (fun x _ => ⟨(hf x).1,(hf x).2.1,fun _ hu => ?_⟩) fun x _ _ _ => (hf x).2.2.2
    rw [(hf x).2.2.1,hu]
  cases ha with
  | enlist hf hk hc hp => exact h.enlist _ _ _ _
  | greet ha hx =>
    refine (h.accept ha).modify _ (fun _ _ => ⟨rfl,rfl,fun _ hu => hu⟩) fun x a _ hm => ?_
    exact absurd hm (not_mem_pending_of_accept h ha a)
  | again hf hk hc hx => exact h
  | @take a frame p x inbox hf hk hc hx ho hi =>
    refine h.modify p (fun y hy => ⟨rfl,rfl,fun hcl _ => ?_⟩) fun _ _ _ _ => rfl
    obtain ⟨z,hz,_,hopen⟩ := h.connected a p hc
    rw [hy] at hz
    obtain rfl := Option.some.inj hz
    rw [hcl] at hopen
    cases hopen
  | @refuse a frame p x hf hk hc hx ho =>
    refine h.modify p (fun y hy => ⟨rfl,rfl,fun _ hu => ?_⟩) fun _ _ _ _ => rfl
    rw [hx] at hy
    obtain rfl := Option.some.inj hy
    exact hu
  | leave hc => exact hsame _ _ fun _ => ⟨rfl,rfl,rfl,rfl⟩
  | drop hd => exact h.drop hd
  | tick p silence => exact hsame _ _ fun _ => ⟨rfl,rfl,rfl,rfl⟩
  | fall hx hc => exact h.fell hx hc
  | shut hs => exact sound_shut r
  | @read p x room hx =>
    refine h.modify p (fun y hy => ⟨rfl,rfl,fun _ hu => ?_⟩) fun _ _ _ _ => rfl
    rw [hx] at hy
    obtain rfl := Option.some.inj hy
    have hn : (x.inbox.read room).2.unread = x.inbox.unread.drop room := rfl
    rw [hn,hu,List.drop_nil]
  | finish hx hc hu => exact h.forget hx hc hu
  | marked hr => exact h
  | cut a hs => exact h

end Registry
end ReliableTransport
