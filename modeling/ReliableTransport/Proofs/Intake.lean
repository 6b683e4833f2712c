import ReliableTransport.Proofs.Records
import ReliableTransport.Proofs.Signed

/-! What an act does to one record and what it says. A record takes the next fragment whole or
nothing, what is handed out are its oldest bytes (`Act.record`), and every frame an act sends is
about a record of the address it goes to (`Act.sent`). -/
namespace ReliableTransport
namespace Registry

open Receiver (reply)

structure Later (x y : Peer) : Prop where
  addr : y.addr = x.addr
  capacity : y.inbox.capacity = x.inbox.capacity
  closing : x.closing = true → y.closing = true
  closed : x.closed = true → y.closed = true

theorem Later.refl (x : Peer) : Later x x := ⟨rfl,rfl,fun h => h,fun h => h⟩

theorem Later.trans {x y z : Peer} (h : Later x y) (hs : Later y z) : Later x z :=
  ⟨hs.addr.trans h.addr,hs.capacity.trans h.capacity,fun hx => hs.closing (h.closing hx),
    fun hx => hs.closed (h.closed hx)⟩

structure Idle (x y : Peer) : Prop where
  later : Later x y
  inbox : y.inbox = x.inbox

theorem Idle.refl (x : Peer) : Idle x x := ⟨.refl x,rfl⟩

theorem Idle.trans {x y z : Peer} (h : Idle x y) (hs : Idle y z) : Idle x z :=
  ⟨h.later.trans hs.later,hs.inbox.trans h.inbox⟩

theorem idle_silence (x : Peer) (silence : Silence) : Idle x { x with silence } :=
  ⟨⟨rfl,rfl,fun h => h,fun h => h⟩,rfl⟩

theorem idle_checking (x : Peer) : Idle x { x with checking := true } :=
  ⟨⟨rfl,rfl,fun h => h,fun h => h⟩,rfl⟩

theorem idle_requestClose (x : Peer) : Idle x x.requestClose :=
  ⟨⟨rfl,rfl,fun _ => rfl,fun h => h⟩,rfl⟩

theorem idle_teardown (x : Peer) : Idle x x.teardown :=
  ⟨⟨rfl,rfl,fun h => h,fun _ => rfl⟩,rfl⟩

/-- What becomes of the bytes of one record in an act that does `ds`. -/
inductive Passes (hears : Address → Frame → Prop) (connected : Prop) (p : PeerId)
    (ds : List Deed) (x y : Peer) : Prop
  | keep (hn : y.inbox.next = x.inbox.next) (ht : takings p ds = [])
      (hh : (handings p ds).flatten ++ y.inbox.unread = x.inbox.unread)
  | take {frame : Frame} (hf : hears x.addr frame) (hk : frame.kind = .data) (hc : connected)
      (hcl : x.closing = false) (ho : x.inbox.offer frame.fragment frame.payload = some y.inbox)
      (ht : takings p ds = [frame.payload]) (hh : handings p ds = [])

section

variable {hears : Address → Frame → Prop} {capacity : Nat} {threshold : Duration}
  {shutting connected : Prop} {r s : Registry} {ds : List Deed} {p : PeerId} {x : Peer}

theorem Idle.passes {y : Peer} (h : Idle x y) (ht : takings p ds = []) (hh : handings p ds = []) :
    Passes hears connected p ds x y := by
  refine .keep (by rw [h.inbox]) ht ?_
  rw [hh,h.inbox]
  rfl

theorem idle_modify {q : PeerId} {f : Peer → Peer} (hf : ∀ x, Idle x (f x))
    (hx : r.peers[p]? = some x) : ∃ y, (r.modify q f).peers[p]? = some y ∧ Idle x y := by
  by_cases h : q = p
  · subst h
    exact ⟨f x,peers_modify_self hx,hf x⟩
  · exact ⟨x,by rw [peers_modify_ne f h,hx],.refl x⟩

theorem idle_foldl (ps : List PeerId) {f : Peer → Peer} (hf : ∀ x, Idle x (f x))
    (hx : r.peers[p]? = some x) :
    ∃ y, (ps.foldl (fun r q => r.modify q f) r).peers[p]? = some y ∧ Idle x y := by
  induction ps generalizing r x with
  | nil => exact ⟨x,hx,.refl x⟩
  | cons q ps ih =>
    obtain ⟨y,hy,hxy⟩ := idle_modify hf hx
    obtain ⟨z,hz,hyz⟩ := ih hy
    exact ⟨z,hz,hxy.trans hyz⟩

/-- An act leaves the bytes of a record alone if no more than this is known of it. -/
theorem record_of_idle (h : ∃ y, s.peers[p]? = some y ∧ Idle x y) (ht : takings p ds = [])
    (hh : handings p ds = []) :
    ∃ y, s.peers[p]? = some y ∧ Later x y ∧ Passes hears connected p ds x y := by
  obtain ⟨y,hy,hi⟩ := h
  exact ⟨y,hy,hi.later,hi.passes ht hh⟩

/-- What an act does to one record. -/
theorem Act.record (ha : Act hears capacity threshold shutting r ds s) (h : r.Sound)
    (hx : r.peers[p]? = some x) :
    ∃ y, s.peers[p]? = some y ∧ Later x y ∧
      Passes hears (r.connected.get? x.addr = some p) p ds x y := by
  cases ha with
  | enlist hf hk hc hp =>
    refine record_of_idle ⟨x,?_,.refl x⟩ rfl rfl
    have hlt := (List.getElem?_eq_some_iff.mp hx).1
    rw [peers_enqueue]
    show (r.peers ++ [_])[p]? = some x
    rw [List.getElem?_append_left hlt,hx]
  | @greet t q z ha hq =>
    obtain ⟨a,rest,hpend,rfl⟩ := accept_eq_some_iff.mp ha
    have hsilence : ∀ y : Peer, Idle y { y with silence := y.silence.reset } :=
      fun y => idle_silence y _
    obtain ⟨y,hy,hxy⟩ := idle_modify (q := q) hsilence hx
    obtain ⟨w,hw,hyw⟩ := idle_modify (q := q) idle_checking hy
    exact record_of_idle ⟨w,hw,hxy.trans hyw⟩ rfl rfl
  | again hf hk hc hq => exact record_of_idle ⟨x,hx,.refl x⟩ rfl rfl
  | @take a frame q z inbox hf hk hc hq ho hi =>
    by_cases hqp : q = p
    · subst hqp
      rw [hx] at hq
      obtain rfl := Option.some.inj hq
      obtain ⟨w,hw,hadd,_⟩ := h.connected a q hc
      rw [hx] at hw
      obtain rfl := Option.some.inj hw
      subst hadd
      have hcap := (Inbox.offer_eq_some_iff.mp hi).2
      refine ⟨_,peers_modify_self hx,⟨rfl,by rw [hcap],fun h => h,fun h => h⟩,?_⟩
      exact .take hf hk hc ho hi (by simp) rfl
    · refine record_of_idle ⟨x,by rw [peers_modify_ne _ hqp,hx],.refl x⟩ ?_ rfl
      simp [hqp]
  | @refuse a frame q z hf hk hc hq ho =>
    by_cases hqp : q = p
    · subst hqp
      rw [hx] at hq
      obtain rfl := Option.some.inj hq
      exact record_of_idle ⟨_,peers_modify_self hx,idle_silence x _⟩ rfl rfl
    · exact record_of_idle ⟨x,by rw [peers_modify_ne _ hqp,hx],.refl x⟩ rfl rfl
  | leave hc => exact record_of_idle (idle_modify idle_requestClose hx) rfl rfl
  | drop hd =>
    rw [removePending_eq_some hd]
    exact record_of_idle ⟨x,hx,.refl x⟩ rfl rfl
  | tick q silence => exact record_of_idle (idle_modify (fun y => idle_silence y silence) hx) rfl rfl
  | @fall q z hq hc =>
    obtain ⟨t,he,hpeers,_⟩ := fell_eq r q z.addr
    rw [he]
    exact record_of_idle (idle_modify idle_teardown (by rw [hpeers,hx])) rfl rfl
  | shut hs => exact record_of_idle (idle_foldl _ idle_teardown hx) rfl rfl
  | @read q z room hq =>
    by_cases hqp : q = p
    · subst hqp
      rw [hx] at hq
      obtain rfl := Option.some.inj hq
      refine ⟨_,peers_modify_self hx,⟨rfl,rfl,fun h => h,fun h => h⟩,.keep rfl rfl ?_⟩
      simpa using x.inbox.read_append room
    · refine record_of_idle ⟨x,by rw [peers_modify_ne _ hqp,hx],.refl x⟩ rfl ?_
      simp [hqp]
  | finish hq hc hu => exact record_of_idle ⟨x,by rw [peers_forgetDrained,hx],.refl x⟩ rfl rfl
  | marked hr => exact record_of_idle ⟨x,hx,.refl x⟩ rfl rfl
  | cut a hs => exact record_of_idle ⟨x,hx,.refl x⟩ rfl rfl

theorem length_modify (r : Registry) (p : PeerId) (f : Peer → Peer) :
    (r.modify p f).peers.length = r.peers.length := by
  simp [modify]

theorem length_foldl (ps : List PeerId) (f : Peer → Peer) (r : Registry) :
    (ps.foldl (fun r p => r.modify p f) r).peers.length = r.peers.length := by
  induction ps generalizing r with
  | nil => rfl
  | cons p ps ih => rw [List.foldl_cons,ih,length_modify]

/-- A record into which nothing is taken waits for the same fragment as before. -/
theorem Acts.next_eq (ha : Acts hears capacity threshold shutting r ds s) (h : r.Sound)
    (ht : takings p ds = []) (hx : r.peers[p]? = some x) :
    ∃ y, s.peers[p]? = some y ∧ y.inbox.next = x.inbox.next := by
  induction ha generalizing x with
  | done => exact ⟨x,hx,rfl⟩
  | next ha _ ih =>
    rw [takings_append,List.append_eq_nil_iff] at ht
    obtain ⟨y,hy,_,hp⟩ := ha.record h hx
    obtain ⟨z,hz,hn⟩ := ih (ha.sound h) ht.2 hy
    refine ⟨z,hz,?_⟩
    rw [hn]
    cases hp with
    | keep hn _ _ => exact hn
    | take _ _ _ _ _ ht' _ =>
      rw [ht'] at ht
      cases ht.1

theorem Acts.later (ha : Acts hears capacity threshold shutting r ds s) (h : r.Sound)
    (hx : r.peers[p]? = some x) : ∃ y, s.peers[p]? = some y ∧ Later x y := by
  induction ha generalizing x with
  | done => exact ⟨x,hx,.refl x⟩
  | next ha _ ih =>
    obtain ⟨y,hy,hxy,_⟩ := ha.record h hx
    obtain ⟨z,hz,hyz⟩ := ih (ha.sound h) hy
    exact ⟨z,hz,hxy.trans hyz⟩

theorem Acts.sound (ha : Acts hears capacity threshold shutting r ds s) (h : r.Sound) :
    s.Sound := by
  induction ha with
  | done => exact h
  | next ha _ ih => exact ih (ha.sound h)

/-- Records are only ever added, by requests to connect, and hold nothing at first. -/
theorem Act.fresh (ha : Act hears capacity threshold shutting r ds s) :
    s.peers.length = r.peers.length ∨
      ∃ a frame, hears a frame ∧ frame.kind = .rcon ∧ ds = [] ∧
        s.peers = r.peers ++ [.start a frame.fragment capacity threshold] := by
  cases ha with
  | @enlist a frame hf hk hc hp =>
    refine .inr ⟨a,frame,hf,hk,rfl,?_⟩
    rw [peers_enqueue]
    rfl
  | greet ha hq =>
    obtain ⟨a,rest,hpend,rfl⟩ := accept_eq_some_iff.mp ha
    refine .inl ?_
    rw [length_modify]
    exact length_modify r _ _
  | again hf hk hc hq => exact .inl rfl
  | take hf hk hc hq ho hi => exact .inl (length_modify r _ _)
  | refuse hf hk hc hq ho => exact .inl (length_modify r _ _)
  | leave hc => exact .inl (length_modify r _ _)
  | drop hd =>
    rw [removePending_eq_some hd]
    exact .inl rfl
  | tick q silence => exact .inl (length_modify r _ _)
  | @fall q z hq hc =>
    obtain ⟨t,he,hpeers,_⟩ := fell_eq r q z.addr
    rw [he,length_modify,hpeers]
    exact .inl rfl
  | shut hs => exact .inl (length_foldl _ _ _)
  | read room hq => exact .inl (length_modify r _ _)
  | finish hq hc hu =>
    rw [peers_forgetDrained]
    exact .inl rfl
  | marked hr => exact .inl rfl
  | cut a hs => exact .inl rfl

/-- Nothing is taken into a record that is not there, and nothing handed out of it. -/
theorem Act.silent (ha : Act hears capacity threshold shutting r ds s)
    (hp : r.peers[p]? = none) : takings p ds = [] ∧ handings p ds = [] := by
  have hne : ∀ {q : PeerId} {y : Peer}, r.peers[q]? = some y → ¬ q = p := by
    rintro q y hq rfl
    rw [hp] at hq
    cases hq
  cases ha with
  | take hf hk hc hq ho hi => simp [hne hq]
  | read room hq => simp [hne hq]
  | enlist hf hk hc hp => exact ⟨rfl,rfl⟩
  | greet ha hq => exact ⟨rfl,rfl⟩
  | again hf hk hc hq => exact ⟨rfl,rfl⟩
  | refuse hf hk hc hq ho => exact ⟨rfl,rfl⟩
  | leave hc => exact ⟨rfl,rfl⟩
  | drop hd => exact ⟨rfl,rfl⟩
  | tick q silence => exact ⟨rfl,rfl⟩
  | fall hq hc => exact ⟨rfl,rfl⟩
  | shut hs => exact ⟨rfl,rfl⟩
  | finish hq hc hu => exact ⟨rfl,rfl⟩
  | marked hr => exact ⟨rfl,rfl⟩
  | cut a hs => exact ⟨rfl,rfl⟩

/-- A record that is there after an act was there before it, or has just been made. -/
theorem Act.origin (ha : Act hears capacity threshold shutting r ds s) (h : r.Sound) {y : Peer}
    (hy : s.peers[p]? = some y) :
    (∃ x, r.peers[p]? = some x ∧ Later x y ∧
      Passes hears (r.connected.get? x.addr = some p) p ds x y) ∨
    (p = r.peers.length ∧ ds = [] ∧ ∃ a frame, hears a frame ∧ frame.kind = .rcon ∧
      y = .start a frame.fragment capacity threshold) := by
  cases hx : r.peers[p]? with
  | some x =>
    obtain ⟨z,hz,hl,hp⟩ := ha.record h hx
    rw [hy] at hz
    obtain rfl := Option.some.inj hz
    exact .inl ⟨x,rfl,hl,hp⟩
  | none =>
    have hge := List.getElem?_eq_none_iff.mp hx
    have hlt := (List.getElem?_eq_some_iff.mp hy).1
    rcases ha.fresh with he | ⟨a,frame,hf,hk,hds,he⟩
    · omega
    · have hp : p = r.peers.length := by
        rw [he,List.length_append] at hlt
        simp only [List.length_cons,List.length_nil] at hlt
        exact Nat.le_antisymm (Nat.le_of_lt_succ hlt) hge
      rw [he,hp,List.getElem?_concat_length] at hy
      exact .inr ⟨hp,hds,a,frame,hf,hk,(Option.some.inj hy).symm⟩

/-- The frames a receiver sends to an address, given the records it has then. -/
inductive Reply (capacity : Nat) (s : Registry) (a : Address) : Frame → Prop
  | greet {p : PeerId} {x : Peer} (hx : s.peers[p]? = some x) (ha : x.addr = a) :
      Reply capacity s a (reply .acon x.inbox.lastAccepted (Frame.windowOf capacity))
  | again {p : PeerId} {x : Peer} (hx : s.peers[p]? = some x) (ha : x.addr = a) :
      Reply capacity s a (reply .acon x.inbox.lastAccepted x.inbox.window)
  | data {p : PeerId} {x : Peer} (hx : s.peers[p]? = some x) (ha : x.addr = a)
      (hc : s.connected.get? a = some p) (ho : x.closing = false) :
      Reply capacity s a (reply .adat x.inbox.lastAccepted x.inbox.window)
  | leave : Reply capacity s a (reply .acls 0 0)

/-- Every frame an act sends is about a record of the address it goes to. -/
theorem Act.sent (ha : Act hears capacity threshold shutting r ds s) (h : r.Sound) {a : Address}
    {frame : Frame} (hs : .sent a frame ∈ ds) : Reply capacity s a frame := by
  have hat : ∀ {b : Address} {q : PeerId} {y : Peer}, r.connected.get? b = some q →
      r.peers[q]? = some y → y.addr = b := by
    intro b q y hb hy
    obtain ⟨z,hz,had,_⟩ := h.connected b q hb
    rw [hy] at hz
    rw [Option.some.inj hz,had]
  cases ha with
  | @greet t q y ha hq =>
    simp only [List.mem_singleton,Deed.sent.injEq] at hs
    obtain ⟨rfl,rfl⟩ := hs
    exact .greet (x := { y with checking := true }) (peers_modify_self hq) rfl
  | again hf hk hc hq =>
    simp only [List.mem_singleton,Deed.sent.injEq] at hs
    obtain ⟨rfl,rfl⟩ := hs
    exact .again hq (hat hc hq)
  | @take b g q y inbox hf hk hc hq ho hi =>
    simp only [List.mem_cons,reduceCtorEq,List.not_mem_nil,or_false,false_or,
      Deed.sent.injEq] at hs
    obtain ⟨rfl,rfl⟩ := hs
    have had := hat hc hq
    exact .data (x := { y with inbox, silence := y.silence.reset }) (peers_modify_self hq) had hc ho
  | @refuse b g q y hf hk hc hq ho =>
    simp only [List.mem_singleton,Deed.sent.injEq] at hs
    obtain ⟨rfl,rfl⟩ := hs
    have had := hat hc hq
    exact .data (x := { y with inbox := y.inbox, silence := y.silence.reset })
      (peers_modify_self hq) had hc ho
  | leave hc =>
    simp only [List.mem_singleton,Deed.sent.injEq] at hs
    obtain ⟨rfl,rfl⟩ := hs
    exact .leave
  | enlist hf hk hc hp => cases hs
  | drop hd => cases hs
  | tick q silence => cases hs
  | fall hq hc => cases hs
  | shut hs' => cases hs
  | read room hq => simp at hs
  | finish hq hc hu => simp at hs
  | marked hr => simp at hs
  | cut a hs' => simp at hs

/-- A reader is told that there is no more once a record of the address is read to its end. -/
theorem Act.ended (ha : Act hears capacity threshold shutting r ds s) (h : r.Sound)
    {a : Address} (hs : .ended a ∈ ds) (hn : ¬ shutting) :
    ds = [.ended a] ∧ ∃ (p : PeerId) (x : Peer), r.peers[p]? = some x ∧ x.addr = a ∧
      x.closed = true ∧ x.inbox.unread = [] := by
  cases ha with
  | finish hq hc hu =>
    simp only [List.mem_singleton,Deed.ended.injEq] at hs
    subst hs
    exact ⟨rfl,_,_,hq,rfl,hc,hu⟩
  | marked hr =>
    simp only [List.mem_singleton,Deed.ended.injEq] at hs
    subst hs
    exact ⟨rfl,h.drained _ hr⟩
  | cut b hs' => exact absurd hs' hn
  | enlist hf hk hc hp => cases hs
  | greet ha hq => simp at hs
  | again hf hk hc hq => simp at hs
  | take hf hk hc hq ho hi => simp at hs
  | refuse hf hk hc hq ho => simp at hs
  | leave hc => simp at hs
  | drop hd => cases hs
  | tick q silence => cases hs
  | fall hq hc => cases hs
  | shut hs' => cases hs
  | read room hq => simp at hs

def Stands (r : Registry) (p : PeerId) : Prop :=
  (∃ a, (a,p) ∈ r.pending) ∨ ∃ a, r.connected.get? a = some p

theorem Sound.stands (h : r.Sound) (hp : r.Stands p) :
    ∃ x, r.peers[p]? = some x ∧ x.closed = false := by
  rcases hp with ⟨a,ha⟩ | ⟨a,ha⟩
  · obtain ⟨x,hx,_,hc,_⟩ := h.pending a p ha
    exact ⟨x,hx,hc⟩
  · obtain ⟨x,hx,_,hc⟩ := h.connected a p ha
    exact ⟨x,hx,hc⟩

theorem Act.stands (ha : Act hears capacity threshold shutting r ds s) (hs : s.Stands p) :
    r.Stands p ∨ p = r.peers.length := by
  cases ha with
  | enlist hf hk hc hp =>
    rcases hs with ⟨a,ha⟩ | ⟨a,ha⟩
    · rw [pending_enqueue] at ha
      rcases List.mem_append.mp ha with ha | ha
      · exact .inl (.inl ⟨a,ha⟩)
      · simp only [List.mem_singleton,Prod.mk.injEq] at ha
        exact .inr ha.2
    · rw [connected_enqueue] at ha
      exact .inl (.inr ⟨a,ha⟩)
  | greet ha hq =>
    obtain ⟨b,rest,hpend,rfl⟩ := accept_eq_some_iff.mp ha
    have hmem : ∀ e ∈ rest, e ∈ r.pending := fun e he => by
      rw [hpend]
      exact List.mem_cons_of_mem _ he
    rcases hs with ⟨a,ha⟩ | ⟨a,ha⟩
    · exact .inl (.inl ⟨a,hmem _ ha⟩)
    · have ha : (r.connected.insert b _).get? a = some p := ha
      rw [Dict.get?_insert] at ha
      split at ha
      · obtain rfl := Option.some.inj ha
        exact .inl (.inl ⟨b,by rw [hpend]; exact List.mem_cons_self⟩)
      · exact .inl (.inr ⟨a,ha⟩)
  | drop hd =>
    rw [removePending_eq_some hd] at hs
    rcases hs with ⟨a,ha⟩ | hs
    · exact .inl (.inl ⟨a,List.eraseP_sublist.subset ha⟩)
    · exact .inl (.inr hs)
  | @fall q z hq hc =>
    obtain ⟨t,he,_,hpend,hconn,_⟩ := fell_eq r q z.addr
    rw [he] at hs
    rcases hs with ⟨a,ha⟩ | ⟨a,ha⟩
    · exact .inl (.inl ⟨a,hpend ▸ ha⟩)
    · exact .inl (.inr ⟨a,(hconn a p ha).1⟩)
  | shut hs' =>
    obtain ⟨hc,hp,_⟩ := foldl_modify_places r.drain.1.2 .teardown r.drain.2
    rcases hs with ⟨a,ha⟩ | ⟨a,ha⟩
    · have ha : (a,p) ∈ r.drain.2.pending := hp ▸ ha
      cases ha
    · have ha : r.drain.2.connected.get? a = some p := hc ▸ ha
      cases ha
  | finish hq hc hu =>
    rcases hs with ⟨a,ha⟩ | ⟨a,ha⟩
    · exact .inl (.inl ⟨a,pending_forgetDrained _ _ ▸ ha⟩)
    · exact .inl (.inr ⟨a,connected_forgetDrained _ _ ▸ ha⟩)
  | again hf hk hc hq => exact .inl hs
  | take hf hk hc hq ho hi => exact .inl hs
  | refuse hf hk hc hq ho => exact .inl hs
  | leave hc => exact .inl hs
  | tick q silence => exact .inl hs
  | read room hq => exact .inl hs
  | marked hr => exact .inl hs
  | cut a hs' => exact .inl hs

end

end Registry
end ReliableTransport
