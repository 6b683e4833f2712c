import ReliableTransport.Proofs.Outlook

/-! Two datagrams from different addresses change places. What they do touches different records
and different calls (`place_comm`, `waiting_comm`), and what the receiver sees of either address is
not changed by the other, so both are told the same in either order (`Swaps.of_hear`). If both are
new they wait in the order in which they came, and that is all that differs (`Agree`). -/
namespace ReliableTransport

namespace Registry

variable {g : Registry} {a b : Address} {x y : Peer} {p q : PeerId}

def queue (g : Registry) : List (Address × Option Peer) :=
  g.pending.map fun e => (e.1,g.peers[e.2]?)

def Lined (g : Registry) : Prop := ∀ e ∈ g.pending, e.2 < g.peers.length

theorem Sound.lined (h : g.Sound) : g.Lined := by
  intro e he
  obtain ⟨x,hx,_⟩ := h.pending e.1 e.2 he
  exact (List.getElem?_eq_some_iff.mp hx).1

theorem Lined.enlist (h : g.Lined) (a : Address) (x : Peer) : (g.enlist a x).Lined := by
  intro e he
  rw [pending_enlist] at he
  rw [peers_enlist,List.length_append,List.length_singleton]
  rcases List.mem_append.mp he with he | he
  · exact Nat.lt_succ_of_lt (h e he)
  · rw [List.mem_singleton.mp he]
    exact Nat.lt_succ_self _

theorem queue_enlist (h : g.Lined) (a : Address) (x : Peer) :
    (g.enlist a x).queue = g.queue ++ [(a,some x)] := by
  have hold : (g.pending.map fun e => (e.1,(g.peers ++ [x])[e.2]?)) = g.queue :=
    List.map_congr_left fun e he => by rw [List.getElem?_append_left (h e he)]
  rw [queue,pending_enlist,peers_enlist,List.map_append,hold]
  simp

theorem modify_comm (hpq : p ≠ q) (f k : Peer → Peer) :
    (g.modify p f).modify q k = (g.modify q k).modify p f := by
  have hpeers : (g.peers.modify p f).modify q k = (g.peers.modify q k).modify p f := by
    refine List.ext_getElem? fun i => ?_
    simp only [List.getElem?_modify]
    by_cases hp : p = i
    · have hq : ¬ q = i := fun hq => hpq (hp.trans hq.symm)
      simp [hp,hq]
    · simp [hp]
  simp only [modify,hpeers]

theorem enlist_modify (hp : p < g.peers.length) (f : Peer → Peer) :
    (g.modify p f).enlist a x = (g.enlist a x).modify p f := by
  have hpeers : g.peers.modify p f ++ [x] = (g.peers ++ [x]).modify p f := by
    refine List.ext_getElem? fun i => ?_
    rw [List.getElem?_modify,List.getElem?_append,List.getElem?_append,List.length_modify,
      List.getElem?_modify]
    split
    · rfl
    · rename_i hi
      have hne : ¬ p = i := fun he => hi (he ▸ hp)
      simp [hne]
  unfold enlist enqueue register modify
  simp only [List.length_modify]
  split <;> simp only [hpeers]

theorem enlist_leave (hab : a ≠ b) : (g.leave b).enlist a x = (g.enlist a x).leave b := by
  have hpending : ∀ n : PeerId, (g.pending.eraseP fun e => e.1 = b) ++ [(a,n)] =
      (g.pending ++ [(a,n)]).eraseP fun e => e.1 = b := by
    intro n
    rw [List.eraseP_append]
    split
    · rfl
    · rename_i hnone
      have hnot : ∀ e ∈ g.pending, ¬ decide (e.1 = b) = true := fun e he hb =>
        hnone (List.any_eq_true.mpr ⟨e,he,hb⟩)
      rw [List.eraseP_of_forall_not hnot]
      simp [hab]
  unfold enlist enqueue register leave
  simp only
  split <;> simp only [hpending]

theorem leave_comm (hab : a ≠ b) : (g.leave a).leave b = (g.leave b).leave a := by
  have hpending : (g.pending.eraseP fun e => e.1 = a).eraseP (fun e => e.1 = b) =
      (g.pending.eraseP fun e => e.1 = b).eraseP fun e => e.1 = a := by
    refine List.eraseP_comm fun e _ => ?_
    by_cases he : e.1 = a
    · exact .inr (by simpa [he] using hab)
    · exact .inl (by simpa using he)
  simp only [leave,hpending]

theorem marks_enlist (hab : a ≠ b) :
    ((g.enlist a x).enlist b y).retired = ((g.enlist b y).enlist a x).retired ∧
      ((g.enlist a x).enlist b y).retiredOrder = ((g.enlist b y).enlist a x).retiredOrder := by
  refine ⟨?_,?_⟩
  · simp only [retired_enlist,Dict.erase,List.filter_filter]
    exact List.filter_congr fun e _ => Bool.and_comm _ _
  · simp only [order_enlist,retired_enlist,Dict.get?_erase,if_neg hab,if_neg hab.symm]
    split
    · split
      · simp only [List.filter_filter]
        exact List.filter_congr fun e _ => Bool.and_comm _ _
      · rfl
    · rfl

end Registry

namespace Receiver

variable {r s t : Receiver} {a b : Address} {e f : Effect}

/-- What an effect does to the records. -/
def Effect.place (a : Address) (g : Registry) : Effect → Registry
  | .rest => g
  | .enlist x => g.enlist a x
  | .amend p y _ _ => g.modify p fun _ => y
  | .drop => g.leave a

def Effect.wakes : Effect → Call → Bool
  | .enlist _ => fun c => c = .accept
  | .amend p _ woken _ => fun c => woken && c.reads p
  | _ => fun _ => false

def Effect.answers : Effect → List CallId
  | .amend _ _ _ done => done
  | _ => []

theorem apply_eq (a : Address) (r : Receiver) (e : Effect) :
    e.apply a r = { r with
      registry := e.place a r.registry
      waiting := Waiting.wake (r.waiting.filter fun w => w.id ∉ e.answers) e.wakes } := by
  cases e with
  | amend p y woken done => rfl
  | rest => simp [Effect.apply,Effect.place,Effect.answers,Effect.wakes,wake_never]
  | drop => simp [Effect.apply,Effect.place,Effect.answers,Effect.wakes,wake_never,Registry.leave]
  | enlist x =>
    simp only [Effect.apply,Effect.place,Effect.answers,Effect.wakes,List.not_mem_nil,
      not_false_eq_true,decide_true,List.filter_true]
    rfl

/-- Which calls are woken and which are answered matters, but not in which order. -/
theorem waiting_comm (e f : Effect) :
    (f.apply b (e.apply a r)).waiting = (e.apply a (f.apply b r)).waiting := by
  have hfilter : ∀ (ws : List (Waiting Call)) (wakes : Call → Bool) (done : List CallId),
      (Waiting.wake ws wakes).filter (fun w => w.id ∉ done) =
        Waiting.wake (ws.filter fun w => w.id ∉ done) wakes :=
    fun ws wakes done => List.filter_map
  simp only [apply_eq,hfilter,List.filter_filter]
  have hsame : (r.waiting.filter fun w => decide (w.id ∉ f.answers) && decide (w.id ∉ e.answers)) =
      r.waiting.filter fun w => decide (w.id ∉ e.answers) && decide (w.id ∉ f.answers) :=
    List.filter_congr fun w _ => Bool.and_comm _ _
  rw [hsame]
  simp only [Waiting.wake,List.map_map]
  refine List.map_congr_left fun w _ => ?_
  simp only [Function.comp_apply,Bool.or_assoc,Bool.or_comm (e.wakes w.call)]

/-- The record that an effect changes is one of the address. -/
def Effect.Within (g : Registry) (a : Address) : Effect → Prop
  | .amend p _ _ _ => ∃ x, g.peers[p]? = some x ∧ x.addr = a
  | _ => True

/-- Effects of different addresses come to the same in either order, unless both addresses are
new. -/
theorem place_comm {g : Registry} (hab : a ≠ b) (he : e.Within g a) (hf : f.Within g b) :
    f.place b (e.place a g) = e.place a (f.place b g) ∨ ∃ x y, e = .enlist x ∧ f = .enlist y := by
  have hlt : ∀ {p : PeerId} {c : Address}, (∃ x, g.peers[p]? = some x ∧ x.addr = c) →
      p < g.peers.length := fun ⟨_,hx,_⟩ => (List.getElem?_eq_some_iff.mp hx).1
  cases e with
  | rest => exact .inl rfl
  | enlist x =>
    cases f with
    | rest => exact .inl rfl
    | enlist y => exact .inr ⟨x,y,rfl,rfl⟩
    | amend q z woken done => exact .inl (Registry.enlist_modify (hlt hf) _).symm
    | drop => exact .inl (Registry.enlist_leave hab).symm
  | amend p y woken done =>
    cases f with
    | rest => exact .inl rfl
    | enlist x => exact .inl (Registry.enlist_modify (hlt he) _)
    | amend q z woken' done' =>
      refine .inl (Registry.modify_comm (fun hpq => ?_) _ _)
      obtain ⟨x,hx,hxa⟩ := he
      obtain ⟨x',hx',hxb⟩ := hf
      rw [hpq,hx'] at hx
      exact hab (hxa.symm.trans (Option.some.inj hx ▸ hxb))
    | drop => exact .inl rfl
  | drop =>
    cases f with
    | rest => exact .inl rfl
    | enlist x => exact .inl (Registry.enlist_leave hab.symm)
    | amend q z woken done => exact .inl rfl
    | drop => exact .inl (Registry.leave_comm hab)

theorem respond_within {g : Registry} {o : Outlook} (settings : Settings) (frame : Frame)
    (take : Inbox → List (CallId × Nat) → Served)
    (ho : ∀ p x readers, o = .connected p x readers → g.peers[p]? = some x ∧ x.addr = a) :
    (respond take settings a frame o).1.Within g a := by
  unfold respond
  cases o with
  | connected p x readers =>
    obtain ⟨hx,hxa⟩ := ho p x readers rfl
    cases frame.kind with
    | data =>
      simp only
      split
      · trivial
      · split
        · exact ⟨x,hx,hxa⟩
        · exact ⟨x,hx,hxa⟩
    | rcls => exact ⟨x,hx,hxa⟩
    | rcon | unkn | acon | adat | acls => trivial
  | waiting =>
    simp only
    split <;> trivial
  | away =>
    simp only
    split <;> trivial

theorem hear_within (hs : r.Sound) (take : Inbox → List (CallId × Nat) → Served) (a : Address)
    (raw : Bytes) : (r.hear take a raw).1.Within r.registry a := by
  unfold hear
  split
  · trivial
  · split
    · trivial
    · refine respond_within _ _ _ fun p x readers ho => ?_
      obtain ⟨hx,hxa,_⟩ := of_outlook_connected hs ho
      exact ⟨hx,hxa⟩

/-- Two receivers differ at most in the order in which `a` and `b` came to wait, `a` before `b` in
the first. -/
structure Agree (a b : Address) (s t : Receiver) : Prop where
  settings : t.settings = s.settings
  closing : t.closing = s.closing
  calls : t.calls = s.calls
  waiting : t.waiting = s.waiting
  connected : t.registry.connected = s.registry.connected
  retired : t.registry.retired = s.registry.retired
  order : t.registry.retiredOrder = s.registry.retiredOrder
  capacity : t.registry.retiredCapacity = s.registry.retiredCapacity
  numbers : t.registry.pending.map (·.2) = s.registry.pending.map (·.2)
  records : ∀ p, p ∉ s.registry.pending.map (·.2) → t.registry.peers[p]? = s.registry.peers[p]?
  /-- Those who wait have the same records, in an order that differs at most in the last two. -/
  queue : t.registry.queue = s.registry.queue ∨ ∃ rest x y,
    s.registry.queue = rest ++ [(a,x),(b,y)] ∧ t.registry.queue = rest ++ [(b,y),(a,x)]

theorem Agree.refl (a b : Address) (r : Receiver) : Agree a b r r :=
  ⟨rfl,rfl,rfl,rfl,rfl,rfl,rfl,rfl,rfl,fun _ _ => rfl,.inl rfl⟩

theorem agree_apply (hs : r.Sound) (hab : a ≠ b) (he : e.Within r.registry a)
    (hf : f.Within r.registry b) :
    Agree a b (f.apply b (e.apply a r)) (e.apply a (f.apply b r)) := by
  rcases place_comm hab he hf with hplace | ⟨x,y,rfl,rfl⟩
  · have hboth : ∀ (c d : Address) (k l : Effect), l.apply d (k.apply c r) = { r with
        registry := l.place d (k.place c r.registry)
        waiting := (l.apply d (k.apply c r)).waiting } := fun c d k l => by simp only [apply_eq]
    have hsame : f.apply b (e.apply a r) = e.apply a (f.apply b r) := by
      rw [hboth a b e f,hboth b a f e,hplace,waiting_comm]
    rw [hsame]
    exact .refl a b _
  · have hlined := hs.registry.lined
    exact {
      settings := rfl
      closing := rfl
      calls := rfl
      waiting := (waiting_comm (.enlist x) (.enlist y)).symm
      connected := by
        show ((r.registry.enlist b y).enlist a x).connected =
          ((r.registry.enlist a x).enlist b y).connected
        simp only [Registry.connected_enlist]
      retired := (Registry.marks_enlist hab).1.symm
      order := (Registry.marks_enlist hab).2.symm
      capacity := by
        show ((r.registry.enlist b y).enlist a x).retiredCapacity =
          ((r.registry.enlist a x).enlist b y).retiredCapacity
        simp only [Registry.capacity_enlist]
      numbers := by
        show ((r.registry.enlist b y).enlist a x).pending.map (·.2) =
          ((r.registry.enlist a x).enlist b y).pending.map (·.2)
        simp [Registry.pending_enlist,Registry.peers_enlist]
      records := fun p hp => by
        have hwait : p ∉ ((r.registry.enlist a x).enlist b y).pending.map (·.2) := hp
        show ((r.registry.enlist b y).enlist a x).peers[p]? =
          ((r.registry.enlist a x).enlist b y).peers[p]?
        simp only [Registry.pending_enlist,Registry.peers_enlist,List.map_append,List.mem_append,
          List.map_cons,List.map_nil,List.mem_singleton,List.length_append,List.length_singleton,
          not_or] at hwait
        simp only [Registry.peers_enlist,List.append_assoc,List.singleton_append]
        rcases Nat.lt_or_ge p r.registry.peers.length with hlt | hge
        · rw [List.getElem?_append_left hlt,List.getElem?_append_left hlt]
        · obtain ⟨⟨_,hfirst⟩,hsecond⟩ := hwait
          have hafter : r.registry.peers.length + 2 ≤ p :=
            Nat.lt_of_le_of_ne (Nat.lt_of_le_of_ne hge (Ne.symm hfirst)) (Ne.symm hsecond)
          rw [List.getElem?_eq_none (by simpa using hafter),
            List.getElem?_eq_none (by simpa using hafter)]
      queue := .inr ⟨r.registry.queue,some x,some y,by
        show ((r.registry.enlist a x).enlist b y).queue = _
        rw [Registry.queue_enlist (hlined.enlist a x),Registry.queue_enlist hlined]
        simp,by
        show ((r.registry.enlist b y).enlist a x).queue = _
        rw [Registry.queue_enlist (hlined.enlist b y),Registry.queue_enlist hlined]
        simp⟩ }

/-- Two datagrams can change places: what comes of either is the same whether or not the other was
there before, and the receiver is the same afterwards but for the order in which new addresses
wait. -/
structure Swaps (handle : Receiver → Event → Receiver × List Output) (r : Receiver) (a b : Address)
    (raw raw' : Bytes) : Prop where
  first : (handle (handle r (.datagram b raw')).1 (.datagram a raw)).2 =
    (handle r (.datagram a raw)).2
  second : (handle (handle r (.datagram a raw)).1 (.datagram b raw')).2 =
    (handle r (.datagram b raw')).2
  agree : Agree a b (handle (handle r (.datagram a raw)).1 (.datagram b raw')).1
    (handle (handle r (.datagram b raw')).1 (.datagram a raw)).1

/-- A receiver that handles datagrams by what it sees of their addresses lets them change places. -/
theorem Swaps.of_hear {handle : Receiver → Event → Receiver × List Output}
    {take : Inbox → List (CallId × Nat) → Served} (hs : r.Sound)
    (hnow : ∀ c raw, handle r (.datagram c raw) =
      ((r.hear take c raw).1.apply c r,(r.hear take c raw).2))
    (hbeside : ∀ c raw, Beside c r (handle r (.datagram c raw)).1)
    (hlater : ∀ c raw d raw', handle (handle r (.datagram c raw)).1 (.datagram d raw') =
      (((handle r (.datagram c raw)).1.hear take d raw').1.apply d (handle r (.datagram c raw)).1,
        ((handle r (.datagram c raw)).1.hear take d raw').2))
    (hab : a ≠ b) (raw raw' : Bytes) : Swaps handle r a b raw raw' := by
  have hfirst := (hbeside b raw').hear_eq hs hab take raw
  have hsecond := (hbeside a raw).hear_eq hs hab.symm take raw'
  refine ⟨?_,?_,?_⟩
  · rw [hlater,hfirst,hnow a]
  · rw [hlater,hsecond,hnow b]
  · rw [hlater,hlater,hfirst,hsecond,hnow a,hnow b]
    exact agree_apply hs hab (hear_within hs take a raw) (hear_within hs take b raw')

/-- What a datagram of an address comes to is nobody else's concern. -/
structure Isolated (handle : Receiver → Event → Receiver × List Output) (r : Receiver) : Prop where
  beside : ∀ b raw, Beside b r (handle r (.datagram b raw)).1
  state : ∀ a b raw, a ≠ b → (handle r (.datagram b raw)).1.registry.state a = r.registry.state a
  frames : ∀ b raw, frames (handle r (.datagram b raw)).2 ≤ 1
  concerns : ∀ b raw, ∀ o ∈ (handle r (.datagram b raw)).2, Concerns b r o

theorem isolated_react (hs : r.Sound) : Isolated react r where
  beside := fun b raw => (onDatagram_beside hs b raw).1
  state := fun _ b raw hab => (onDatagram_beside hs b raw).1.registry.state hab
  frames := fun b raw => (onDatagram_outputs hs b raw).1
  concerns := fun b raw => (onDatagram_outputs hs b raw).2

structure Settled (r : Receiver) : Prop where
  sound : r.Sound
  numbered : r.Numbered
  asleep : r.Asleep
  eager : r.Eager

theorem settled_start (settings : Settings) : (start settings).Settled :=
  ⟨sound_start settings,numbered_start settings,asleep_start settings,eager_start settings⟩

theorem Settled.step (h : r.Settled) (e : Event) : (r.step e).1.Settled := by
  have hasleep := asleep_step r e
  obtain ⟨ms,hms⟩ := step_eq_play r e
  have hplay : (r.play ms).1.Sound ∧ (r.play ms).1.Numbered ∧ (r.play ms).1.Eager :=
    chain_induct (P := fun t : Receiver => t.Sound ∧ t.Numbered ∧ t.Eager)
      ⟨h.sound,h.numbered,h.eager⟩
      (fun _ ht m => ⟨ht.1.make m,ht.2.1.make m,ht.2.2.make ht.1 m⟩) ms
  rw [hms] at hasleep ⊢
  exact ⟨hplay.1,hplay.2.1,hasleep,hplay.2.2⟩

theorem settled_run (settings : Settings) (es : List Event) :
    ((start settings).run es).1.Settled :=
  chain_induct (settled_start settings) (fun _ ht e => ht.step e) es

theorem isolated_step (h : r.Settled) : Isolated step r := by
  have hstep := step_beside h.sound h.numbered h.asleep h.eager
  exact {
    beside := fun b raw => (hstep b raw).1
    state := fun _ b raw hab => (hstep b raw).1.registry.state hab
    frames := fun b raw => (hstep b raw).2.1
    concerns := fun b raw => (hstep b raw).2.2 }

theorem Unattended.apply (h : r.Unattended) (a : Address) (e : Effect) :
    (e.apply a r).Unattended := by
  intro w hw
  rw [apply_eq] at hw
  obtain ⟨v,hv,rfl⟩ := List.mem_map.mp hw
  exact h v (List.mem_filter.mp hv).1

theorem swaps_react (hs : r.Sound) (hab : a ≠ b) (raw raw' : Bytes) : Swaps react r a b raw raw' :=
  .of_hear hs (onDatagram_eq hs) (fun c raw => (onDatagram_beside hs c raw).1)
    (fun c raw => onDatagram_eq (hs.react (.datagram c raw))) hab raw raw'

theorem swaps_step (h : r.Settled) (hno : r.Unattended) (hab : a ≠ b) (raw raw' : Bytes) :
    Swaps step r a b raw raw' := by
  have hnow := step_eq h.sound h.numbered h.asleep hno
  refine .of_hear h.sound hnow (isolated_step h).beside (fun c raw => ?_) hab raw raw'
  have hlater := h.step (.datagram c raw)
  have hnext : (r.step (.datagram c raw)).1.Unattended := by
    rw [hnow]
    exact hno.apply c _
  exact step_eq hlater.sound hlater.numbered hlater.asleep hnext

/-- Addresses do not interfere at a receiver. Whatever has happened to it, a datagram is nobody's
concern but its address's, and two datagrams from different addresses can change places; with all
that the woken calls make of them they still can if no call waits for somebody to accept. -/
theorem isolation_along_play (settings : Settings) :
    (∀ ms, Isolated react (after settings ms) ∧
      ∀ a b raw raw', a ≠ b → Swaps react (after settings ms) a b raw raw') ∧
    ∀ es, Isolated step ((start settings).run es).1 ∧ (((start settings).run es).1.Unattended →
      ∀ a b raw raw', a ≠ b → Swaps step ((start settings).run es).1 a b raw raw') := by
  refine ⟨fun ms => ?_,fun es => ?_⟩
  · have hs : (after settings ms).Sound := (sound_start settings).play ms
    exact ⟨isolated_react hs,fun a b raw raw' hab => swaps_react hs hab raw raw'⟩
  · have h := settled_run settings es
    exact ⟨isolated_step h,fun hno a b raw raw' hab => swaps_step h hno hab raw raw'⟩

/-- One address is connected and read from; its data and the request of a new address change
places. -/
theorem isolation_along_play_newcomer :
    let a : Address := ⟨.localhost,0,4001⟩
    let b : Address := ⟨.localhost,0,4002⟩
    let data := Frame.encode ⟨.data,1,0,[97]⟩
    let request := Frame.encode ⟨.rcon,0,0,[]⟩
    let es := [.datagram a request,.acceptOne,.read a 4]
    let r := ((start ⟨64,.ofMillis 1500,.ofMillis 500,1,true⟩).run es).1
    Swaps step r a b data request ∧
      (r.step (.datagram a data)).2 = [.send a (reply .adat 1 63),.finish 1 (.bytes [97])] := by
  intro a b data request es r
  have hno : r.Unattended := by
    unfold Unattended
    decide +kernel
  exact ⟨((isolation_along_play _).2 es).2 hno a b data request (by decide),by decide +kernel⟩

end Receiver
end ReliableTransport
