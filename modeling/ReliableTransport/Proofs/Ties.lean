import ReliableTransport.Proofs.Network

/-! What a network keeps as long as one connection alone sends from the watched address. Every move
is some steps of the link between that connection and the records (`Ties.stir`, `Ties.perform`), so
that whatever holds of the link holds of the network (`Ties.step`). -/
namespace ReliableTransport

open Connection (payloads requestFrame leaveFrame)

structure Connection.Stays (x y : Connection) : Prop where
  bound : y.bound = x.bound
  remote : y.remote = x.remote
  closed : x.closed = true → y.closed = true

theorem Connection.Stays.refl (x : Connection) : x.Stays x := ⟨rfl,rfl,fun h => h⟩

theorem Connection.Stays.trans {x y z : Connection} (h : x.Stays y) (hs : y.Stays z) :
    x.Stays z :=
  ⟨hs.bound.trans h.bound,hs.remote.trans h.remote,fun hx => hs.closed (h.closed hx)⟩

namespace Sender

theorem sound_restart (s : Sender) (settings : Settings) : (s.restart settings).Sound where
  table := by simp [restart,Table.get?,Table.entries,Table.empty]
  older := by simp [restart,held]
  nodup := by simp [restart,held]
  about := by simp [restart,held]
  sized := by simp [restart,held]
  halted := by
    intro d y hy _
    simp only [restart,List.getElem?_map] at hy
    obtain ⟨x,_,rfl⟩ := Option.map_eq_some_iff.mp hy
    exact ⟨rfl,rfl⟩

theorem restart_plays {hears : Frame → Prop} {asking : Prop} {threshold : Nat} {c : ConnRef}
    (s : Sender) (settings : Settings) :
    Plays hears asking threshold c s (s.restart settings) [] := by
  intro x hx
  refine ⟨x.requestClose.teardown,by simp [restart,hx],?_⟩
  have hm : Connection.Marks x x.requestClose.teardown :=
    (Connection.marks_requestClose x).trans (Connection.marks_teardown _)
  exact (Connection.Turn.mark hm).once

theorem modify_stays {s : Sender} {c : ConnRef} {f : Connection → Connection}
    (hf : ∀ x : Connection, x.Stays (f x)) {d : ConnRef} {x : Connection}
    (hx : s.conns[d]? = some x) :
    ∃ y, (s.modify c f).conns[d]? = some y ∧ x.Stays y := by
  by_cases hcd : c = d
  · subst hcd
    exact ⟨f x,by simp [modify,hx],hf x⟩
  · exact ⟨x,by simp only [modify]; rw [List.getElem?_modify_ne _ _ hcd,hx],.refl x⟩

theorem attempt_stays {s : Sender} (call : Call) {d : ConnRef} {x : Connection}
    (hx : s.conns[d]? = some x) :
    ∃ y, (s.attempt call).2.2.conns[d]? = some y ∧ x.Stays y := by
  rcases attempt_cases s call with he | ⟨e,z,pieces,_,he⟩ | ⟨e,he⟩
  · rw [he]
    exact ⟨x,hx,.refl x⟩
  · rw [he]
    exact modify_stays (f := fun conn => { conn with outbox := z.outbox.extend pieces })
      (fun _ => ⟨rfl,rfl,fun h => h⟩) hx
  · rw [he]
    exact modify_stays (f := Connection.requestClose) (fun _ => ⟨rfl,rfl,fun h => h⟩) hx

theorem vacant_iff {s : Sender} {a : Address} :
    s.Vacant a ↔ ∀ (d : ConnRef) x, s.conns[d]? = some x → x.bound = a →
      x.closed = true ∧ ∀ e ∈ s.held, e.2.conn ≠ d := by
  unfold Vacant held
  constructor
  · intro h d x hx hb
    have hm : (x,d) ∈ s.conns.zipIdx := List.mem_zipIdx_iff_getElem?.mpr hx
    obtain ⟨hc,hw⟩ := h _ hm hb
    refine ⟨hc,fun e he => ?_⟩
    obtain ⟨w,hm,rfl⟩ := List.mem_map.mp he
    exact hw w hm
  · intro h e he hb
    obtain ⟨hc,hw⟩ := h e.2 e.1 (List.mem_zipIdx_iff_getElem?.mp he) hb
    exact ⟨hc,fun w hm => hw _ (List.mem_map.mpr ⟨w,hm,rfl⟩)⟩

end Sender

namespace Network

open Sender (Hears Asking Plays)

/-- From `s` to `t` a sender does what is noted: the connections that are watched take turns, a new
one asks its remote, and the calls that wait are old ones or about connections that are open. -/
structure Stirs (watched : ConnRef → Prop) (hears : ConnRef → Frame → Prop) (s t : Sender)
    (notes : List Note) : Prop where
  sound : t.Sound
  stays : ∀ (d : ConnRef) x, s.conns[d]? = some x →
    ∃ y, t.conns[d]? = some y ∧ x.Stays y
  plays : ∀ d, watched d →
    ∃ threshold, Plays (hears d) (Asking s d) threshold d s t (said d notes)
  fresh : ∀ d : ConnRef, s.conns[d]? = none →
    (t.conns[d]? = none ∧ said d notes = []) ∨
      ∃ id bound remote threshold now, t.conns[d]? =
        some (Connection.start id bound remote threshold now) ∧ said d notes = [.sent requestFrame]
  held : ∀ e ∈ t.held, (∃ w ∈ s.held, w.2.conn = e.2.conn ∧ (w.2.Proper s → e.2.Proper s)) ∨
    e.2 = .connect s.conns.length ∨ ∃ number x, s.established number = some (e.2.conn,x)
  silent : done notes = []

theorem addedOn_of_none {s t : Sender} {c : ConnRef} (hs : s.conns[c]? = none)
    (ht : t.conns[c]? = none) (k : CallId) (subject : Option ConnRef) :
    Sender.addedOn k subject c s t = [] := by
  cases subject with
  | none => rfl
  | some d => exact Sender.added_of_eq k (by rw [hs,ht])

theorem stirs_react {s : Sender} (hs : s.Sound) (watched : ConnRef → Prop) (e : Sender.Event) :
    Stirs watched (Hears s e) s (s.react e).1
      (Note.ofEvent s e ++ Note.ofCall s.calls (e.subject s) s (s.react e).1 (s.react e).2) where
  sound := hs.react e
  stays := by
    intro d x hx
    obtain ⟨y,hy,ht⟩ := Sender.react_plays s e d x hx
    obtain ⟨hb,hr,hc,_⟩ := ht.stays
    exact ⟨y,hy,hb,hr,hc⟩
  plays := by
    intro d _
    refine ⟨s.settings.resend.nanos,?_⟩
    rw [said_append,said_ofEvent,said_ofCall,List.nil_append]
    exact Sender.react_plays s e d
  fresh := by
    intro d hd
    rw [said_append,said_ofEvent,said_ofCall,List.nil_append]
    have hlen := List.getElem?_eq_none_iff.mp hd
    rcases s.react_length e with hl | ⟨bound,remote,now,rfl⟩
    · have ht : (s.react e).1.conns[d]? = none := by
        rw [List.getElem?_eq_none_iff,hl]
        exact hlen
      rw [addedOn_of_none hd ht]
      rcases Sender.react_said_of_none hs hd e with he | ⟨rfl,bound,remote,now,rfl⟩
      · exact .inl ⟨ht,he⟩
      · have hne : (s.onConnect bound remote now).1.conns[s.conns.length]? = none := ht
        rw [Sender.onConnect_eq] at hne
        simp at hne
    · have hr : s.react (.connect bound remote none now) = s.onConnect bound remote now := rfl
      rw [hr,Sender.onConnect_eq,Sender.said_cons_send]
      by_cases hc : s.conns.length = d
      · subst hc
        exact .inr ⟨_,bound,remote,_,now,List.getElem?_concat_length,by
          rw [if_pos rfl]
          rfl⟩
      · refine .inl ⟨?_,by rw [if_neg hc]; rfl⟩
        rw [List.getElem?_eq_none_iff,List.length_append,List.length_singleton]
        omega
  held := by
    intro w hw
    rcases Sender.of_react_held hw with hw | ⟨_,hw⟩
    · exact .inl ⟨w,hw,rfl,fun hp => hp⟩
    · exact .inr hw
  silent := by rw [done_append,done_ofEvent,done_ofCall,List.append_nil]

theorem stirs_poll {s : Sender} (hs : s.Sound) {watched : ConnRef → Prop}
    (hears : ConnRef → Frame → Prop) (k : CallId)
    (hp : ∀ e ∈ s.held, watched e.2.conn → e.2.Proper s) :
    Stirs watched hears s (s.poll k).1
      (Note.ofCall k (Sender.subject s k) s (s.poll k).1 (s.poll k).2) where
  sound := hs.poll k
  stays := by
    intro d x hx
    cases hr : Waiting.ready? s.waiting k with
    | none =>
      rw [Sender.poll_none hr]
      exact ⟨x,hx,.refl x⟩
    | some call =>
      rw [Sender.poll_conns hr]
      exact Sender.attempt_stays call hx
  plays := by
    intro d hd
    refine ⟨s.settings.resend.nanos,?_⟩
    rw [said_ofCall]
    unfold Sender.subject
    cases hr : Waiting.ready? s.waiting k with
    | none =>
      rw [Sender.poll_none hr]
      exact Sender.plays_of_eq rfl
    | some call =>
      exact Sender.poll_plays s hr (hs.sized _ (Sender.mem_held_of_ready hr)) fun hc =>
        hp _ (Sender.mem_held_of_ready hr) (show watched call.conn by rw [hc]; exact hd)
  fresh := by
    intro d hd
    have ht : (s.poll k).1.conns[d]? = none := by
      rw [List.getElem?_eq_none_iff,Sender.poll_length]
      exact List.getElem?_eq_none_iff.mp hd
    refine .inl ⟨ht,?_⟩
    rw [said_ofCall,addedOn_of_none hd ht,List.nil_append]
    cases hr : Waiting.ready? s.waiting k with
    | none =>
      rw [Sender.poll_none hr]
      rfl
    | some call =>
      rw [Sender.poll_said hr]
      exact Sender.attempt_said_of_none hd call
  held := fun _ hw => .inl (Sender.of_poll_proper hw)
  silent := done_ofCall _ _ _ _ _

theorem stirs_restart (s : Sender) (watched : ConnRef → Prop) (hears : ConnRef → Frame → Prop)
    (settings : Sender.Settings) : Stirs watched hears s (s.restart settings) [] where
  sound := Sender.sound_restart s settings
  stays := fun d x hx =>
    ⟨x.requestClose.teardown,by simp [Sender.restart,hx],rfl,rfl,fun _ => rfl⟩
  plays := fun _ _ => ⟨0,Sender.restart_plays s settings⟩
  fresh := by
    intro d hd
    exact .inl ⟨by simp [Sender.restart,hd],rfl⟩
  held := by simp [Sender.restart,Sender.held]
  silent := rfl

/-- A call about an open connection is not about one that is torn down. -/
theorem ne_of_established {s : Sender} (hs : s.Sound) {number : ConnId} {d e : ConnRef}
    {x y : Connection} (h : s.established number = some (e,y)) (hx : s.conns[d]? = some x)
    (hc : x.closed = true) : e ≠ d := by
  rintro rfl
  obtain ⟨ht,_⟩ := Sender.lookup_eq_some_iff.mp (Sender.established_eq_some_iff.mp h).1
  obtain ⟨z,hz,_,hzc⟩ := hs.table number e ht
  rw [hx] at hz
  rw [← Option.some.inj hz,hc] at hzc
  cases hzc

/-- A connection that is torn down and that no call is about does nothing more. -/
theorem Stirs.quiet {watched : ConnRef → Prop} {hears : ConnRef → Frame → Prop} {s t : Sender}
    {notes : List Note} (h : Stirs watched hears s t notes) (hs : s.Sound) {d : ConnRef}
    {x : Connection} (hd : watched d) (hx : s.conns[d]? = some x) (hc : x.closed = true)
    (hheld : ∀ e ∈ s.held, e.2.conn ≠ d) :
    (∀ e ∈ t.held, e.2.conn ≠ d) ∧ said d notes = [] := by
  obtain ⟨hl,hp⟩ := hs.halted d x hx hc
  obtain ⟨threshold,hplays⟩ := h.plays d hd
  obtain ⟨y,hy,ht⟩ := hplays x hx
  have hasking : ¬ Asking s d := by
    rintro ⟨w,hw,hcall⟩
    refine hheld _ (Sender.mem_held hw) ?_
    rw [hcall]
    rfl
  refine ⟨fun e he => ?_,ht.over hc hl hp hasking⟩
  rcases h.held e he with ⟨w,hw,hwc,_⟩ | he | ⟨number,w,hw⟩
  · rw [← hwc]
    exact hheld w hw
  · rw [he]
    exact Nat.ne_of_gt (List.getElem?_eq_some_iff.mp hx).1
  · exact ne_of_established hs hw hx hc

def link (n : Network) (c : ConnRef) : Link :=
  ⟨n.sender.conns[c]?,said c n.log,n.receiver.registry,done n.log⟩

def At (near : Address) (s : Sender) (d : ConnRef) : Prop :=
  ∃ x, s.conns[d]? = some x ∧ x.bound = near

/-- What a network keeps that had the records `r₀` when its log began, as long as of the connections
bound to `near` only `c` is open. -/
structure Ties (near far : Address) (c : ConnRef) (shutting : Prop) (r₀ : Registry) (n : Network) :
    Prop where
  sender : n.sender.Sound
  receiver : n.receiver.Sound
  link : (n.link c).Inv near n.receiver.settings.capacity shutting r₀
  proper : ∀ e ∈ n.sender.held, e.2.conn = c → e.2.Proper n.sender
  quiet : ∀ (d : ConnRef) x, d ≠ c → n.sender.conns[d]? = some x → x.bound = near →
    x.closed = true ∧ (∀ e ∈ n.sender.held, e.2.conn ≠ d) ∧ said d n.log = []
  ends : ∀ x, n.sender.conns[c]? = some x → x.bound = near ∧ x.remote = far

section

variable {near far : Address} {c : ConnRef} {shutting : Prop} {r₀ : Registry} {n : Network}

theorem Ties.stir_link (h : Ties near far c shutting r₀ n) {hears : ConnRef → Frame → Prop}
    {t : Sender} {notes : List Note}
    (hs : Stirs (fun d => d = c ∨ At near n.sender d) hears n.sender t notes)
    (hhears : ∀ x frame, n.sender.conns[c]? = some x → hears c frame →
      .sent near frame ∈ done n.log)
    (hfew : (payloads (said c (n.log ++ notes))).length < Signed.fragmentLimit) :
    ((⟨t,n.receiver,n.log ++ notes⟩ : Network).link c).Inv near n.receiver.settings.capacity
      shutting r₀ := by
  have hl := h.link
  unfold Network.link at hl ⊢
  simp only [said_append,done_append,hs.silent,List.append_nil] at hfew ⊢
  cases hx : n.sender.conns[c]? with
  | some x =>
    rw [hx] at hl
    obtain ⟨threshold,hp⟩ := hs.plays c (.inl rfl)
    obtain ⟨y,hy,ht⟩ := hp x hx
    rw [hy]
    have hturns := ht.mono fun frame hf => hhears x frame hx hf
    exact hl.steps (Link.steps_of_turns n.receiver.settings.threshold hturns) hfew
  | none =>
    rw [hx] at hl
    rcases hs.fresh c hx with ⟨ht,hn⟩ | ⟨id,bound,remote,threshold,now,ht,hn⟩
    · rw [ht,hn,List.append_nil]
      exact hl
    · rw [ht,hn]
      exact hl.make rfl id bound remote threshold now

/-- What a sender does keeps the invariant. -/
theorem Ties.stir (h : Ties near far c shutting r₀ n) {hears : ConnRef → Frame → Prop}
    {t : Sender} {notes : List Note}
    (hs : Stirs (fun d => d = c ∨ At near n.sender d) hears n.sender t notes)
    (hhears : ∀ x frame, n.sender.conns[c]? = some x → hears c frame →
      .sent near frame ∈ done n.log)
    (hnew : ∀ (d : ConnRef) x, t.conns[d]? = some x → x.bound = near →
      n.sender.conns[d]? = none → d = c)
    (hends : ∀ x, t.conns[c]? = some x → x.bound = near ∧ x.remote = far)
    (hfew : (payloads (said c (n.log ++ notes))).length < Signed.fragmentLimit) :
    Ties near far c shutting r₀ ⟨t,n.receiver,n.log ++ notes⟩ where
  sender := hs.sound
  receiver := h.receiver
  link := h.stir_link hs hhears hfew
  proper := by
    intro e he hc
    have hsized := hs.sound.sized e he
    have hest : (∀ x, n.sender.conns[e.2.conn]? = some x → x.outbox.established = true) →
        e.2.conn < n.sender.conns.length →
        ∀ y, t.conns[e.2.conn]? = some y → y.outbox.established = true := by
      rw [hc]
      intro hx hlt y hy
      have hget : n.sender.conns[c]? = some n.sender.conns[c] := List.getElem?_eq_getElem hlt
      obtain ⟨threshold,hp⟩ := hs.plays c (.inl rfl)
      obtain ⟨z,hz,ht⟩ := hp _ hget
      rw [hy] at hz
      obtain rfl := Option.some.inj hz
      rw [said_append] at hfew
      exact (ht.conduct (h.link.conduct _ hget) hfew).2 (hx _ hget)
    rcases hs.held e he with ⟨w,hw,hwc,hp⟩ | he | ⟨number,x,hx⟩
    · have hlt := h.sender.about w hw
      rw [hwc] at hlt
      exact (hp (h.proper w hw (by rw [hwc,hc]))).mono fun hall => hest hall hlt
    · rw [he]
      trivial
    · obtain ⟨hl,hx'⟩ := Sender.established_eq_some_iff.mp hx
      have hget := (Sender.lookup_eq_some_iff.mp hl).2
      have hlt := (List.getElem?_eq_some_iff.mp hget).1
      refine Sender.proper_of_established (hest (fun y hy => ?_) hlt) hsized
      rw [hget] at hy
      rw [← Option.some.inj hy]
      exact hx'
  quiet := by
    intro d y hd hy hb
    cases hx : n.sender.conns[d]? with
    | none => exact absurd (hnew d y hy hb hx) hd
    | some x =>
      obtain ⟨z,hz,hstays⟩ := hs.stays d x hx
      rw [hy] at hz
      obtain rfl := Option.some.inj hz
      have hxb : x.bound = near := by rw [← hstays.bound,hb]
      obtain ⟨hxc,hheld,hsaid⟩ := h.quiet d x hd hx hxb
      obtain ⟨hheld',hnotes⟩ := hs.quiet h.sender (.inr ⟨x,hx,hxb⟩) hx hxc hheld
      exact ⟨hstays.closed hxc,hheld',by rw [said_append,hsaid,hnotes]; rfl⟩
  ends := hends

/-- What the receiver does keeps the invariant. -/
theorem Ties.perform (h : Ties near far c shutting r₀ n) {r : Receiver}
    {ds : List Registry.Deed} (hr : r.Sound) (hsettings : r.settings = n.receiver.settings)
    (hp : Receiver.Performs (fun a frame => a = near → .sent frame ∈ said c n.log) shutting
      n.receiver r ds)
    (hfew : (payloads (said c n.log)).length < Signed.fragmentLimit) :
    Ties near far c shutting r₀ ⟨n.sender,r,n.log ++ ds.map .registry⟩ where
  sender := h.sender
  receiver := hr
  link := by
    have hl := h.link
    unfold Network.link at hl ⊢
    rw [hsettings]
    simp only [said_append,said_registry,List.append_nil,done_append,done_registry]
    exact hl.steps (Link.steps_of_acts hp) hfew
  proper := h.proper
  quiet := by
    intro d x hd hx hb
    obtain ⟨hc,hheld,hsaid⟩ := h.quiet d x hd hx hb
    exact ⟨hc,hheld,by rw [said_append,said_registry,List.append_nil,hsaid]⟩
  ends := h.ends

theorem receive_arrival {flip : Option (Nat × Nat)} {frame heard : Frame} (hf : frame.Fits)
    (h : Frame.receive (arrival flip frame) = .ok heard) : heard = frame := by
  cases flip with
  | none =>
    have hr : Frame.receive (arrival none frame) = .ok frame := Frame.receive_encode hf
    rw [hr] at h
    exact (Except.ok.inj h).symm
  | some e =>
    obtain ⟨error,he⟩ := Frame.receive_flip hf e.1 e.2
    have hr : Frame.receive (arrival (some e) frame) = .error error := he
    rw [hr] at h
    cases h

/-- What the sender hears keeps the invariant, if the connection hears only what was sent to it. -/
theorem Ties.send (h : Ties near far c shutting r₀ n) (e : Sender.Event)
    (hhears : ∀ x frame, n.sender.conns[c]? = some x → Hears n.sender e c frame →
      .sent near frame ∈ done n.log)
    (hnew : ∀ (d : ConnRef) x, (n.send e).sender.conns[d]? = some x → x.bound = near →
      n.sender.conns[d]? = none → d = c)
    (hends : ∀ x, (n.send e).sender.conns[c]? = some x → x.bound = near ∧ x.remote = far)
    (hfew : (payloads (said c (n.send e).log)).length < Signed.fragmentLimit) :
    Ties near far c shutting r₀ (n.send e) :=
  h.stir (stirs_react h.sender _ e) hhears hnew hends hfew

/-- What the receiver hears keeps the invariant, if from `near` it hears only what the connection
has sent. -/
theorem Ties.receive (h : Ties near far c shutting r₀ n) (e : Receiver.Event)
    (hhears : ∀ frame, Receiver.Hears e near frame → .sent frame ∈ said c n.log)
    (hfew : (payloads (said c n.log)).length < Signed.fragmentLimit)
    (hshut : (n.receive e).receiver.closing = true → shutting) :
    Ties near far c shutting r₀ (n.receive e) := by
  have hacts := Receiver.react_acts h.receiver e hshut
  refine h.perform (h.receiver.react e) (Receiver.react_settings _ e) ?_ hfew
  refine Registry.Acts.mono hacts fun a frame hf ha => ?_
  rw [ha] at hf
  exact hhears frame hf

/-- Of what the sockets at `near` have sent everything is from the connection, and fits. -/
theorem Ties.sent_near (h : Ties near far c shutting r₀ n) {d : ConnRef} {x : Connection}
    {frame : Frame} (hx : n.sender.conns[d]? = some x) (hb : x.bound = near)
    (hf : .conn d (.sent frame) ∈ n.log) : frame.Fits ∧ .sent frame ∈ said c n.log := by
  by_cases hd : d = c
  · subst hd
    exact ⟨(h.link.conduct x hx).fits (mem_said hf),mem_said hf⟩
  · have hs := mem_said hf
    rw [(h.quiet d x hd hx hb).2.2] at hs
    cases hs

theorem Ties.forth (h : Ties near far c shutting r₀ n) (place : Nat) (flip : Option (Nat × Nat))
    (hfew : (payloads (said c (n.step near far (.forth place flip)).log)).length <
      Signed.fragmentLimit)
    (hshut : (n.step near far (.forth place flip)).receiver.closing = true → shutting) :
    Ties near far c shutting r₀ (n.step near far (.forth place flip)) := by
  rcases step_forth near far n place flip with he | ⟨d,frame,x,hl,hx,_,he⟩
  · rw [he]
    exact h
  · rw [he] at hfew hshut ⊢
    refine h.receive _ (fun heard hf => ?_) ?_ hshut
    · obtain ⟨raw,hraw,hr⟩ := hf
      obtain ⟨hb,rfl⟩ := Receiver.Event.datagram.inj hraw
      obtain ⟨hfits,hsaid⟩ := h.sent_near hx hb (List.mem_of_getElem? hl)
      rw [receive_arrival hfits hr]
      exact hsaid
    · simpa [Network.receive] using hfew

theorem Ties.back (h : Ties near far c shutting r₀ n) (place : Nat) (d : ConnRef)
    (flip : Option (Nat × Nat)) (now : Nat)
    (hnew : ∀ (e : ConnRef) x, (n.step near far (.back place d flip now)).sender.conns[e]? =
      some x → x.bound = near → n.sender.conns[e]? = none → e = c)
    (hends : ∀ x, (n.step near far (.back place d flip now)).sender.conns[c]? = some x →
      x.bound = near ∧ x.remote = far)
    (hfew : (payloads (said c (n.step near far (.back place d flip now)).log)).length <
      Signed.fragmentLimit) :
    Ties near far c shutting r₀ (n.step near far (.back place d flip now)) := by
  rcases step_back near far n place d flip now with he | ⟨frame,x,hx,hl,he⟩
  · rw [he]
    exact h
  · rw [he] at hnew hends hfew ⊢
    refine h.send _ (fun y heard hy hf => ?_) hnew hends hfew
    obtain ⟨source,raw,now',hraw,hr,_⟩ := hf
    obtain ⟨rfl,_,rfl,_⟩ := Sender.Event.datagram.inj hraw
    have hsent := mem_done (List.mem_of_getElem? hl)
    rw [(h.ends x hx).1] at hsent
    rw [receive_arrival (h.link.plain frame hsent) hr]
    exact hsent

/-- Every move keeps the invariant, unless another connection is made at the watched address. -/
theorem Ties.step (h : Ties near far c shutting r₀ n) (move : Move)
    (hnew : ∀ (d : ConnRef) x, (n.step near far move).sender.conns[d]? = some x →
      x.bound = near → n.sender.conns[d]? = none → d = c)
    (hends : ∀ x, (n.step near far move).sender.conns[c]? = some x →
      x.bound = near ∧ x.remote = far)
    (hfew : (payloads (said c (n.step near far move).log)).length < Signed.fragmentLimit)
    (hshut : (n.step near far move).receiver.closing = true → shutting) :
    Ties near far c shutting r₀ (n.step near far move) := by
  cases move with
  | sender e =>
    simp only [Network.step] at hnew hends hfew ⊢
    split at hfew
    · rename_i ha
      rw [if_pos ha] at hnew hends ⊢
      refine h.send e (fun x frame hx hf => ?_) hnew hends hfew
      obtain ⟨source,raw,now,rfl,_,hsource⟩ := hf
      have hfar : source = far := by rw [hsource x hx,(h.ends x hx).2]
      exact absurd hfar ha
    · rename_i ha
      rw [if_neg ha]
      exact h
  | resume k =>
    refine h.stir (stirs_poll h.sender (fun _ _ => False) k fun e he hc => ?_)
      (fun _ _ _ hf => hf.elim) hnew hends hfew
    by_cases hec : e.2.conn = c
    · exact h.proper e he hec
    · rcases hc with hc | ⟨x,hx,hb⟩
      · exact absurd hc hec
      · exact absurd rfl ((h.quiet _ x hec hx hb).2.1 e he)
  | receiver e =>
    simp only [Network.step] at hfew hshut ⊢
    split at hfew
    · rename_i ha
      rw [if_pos ha] at hshut ⊢
      refine h.receive e (fun frame hf => ?_) ?_ hshut
      · obtain ⟨raw,rfl,_⟩ := hf
        exact absurd rfl ha
      · simpa [Network.receive] using hfew
    · rename_i ha
      rw [if_neg ha]
      exact h
  | recover k =>
    have hsame : n.receiver.closing = true → shutting := by
      intro hc
      refine hshut ?_
      have ha := Receiver.poll_alike n.receiver k
      show (n.receiver.poll k).1.closing = true
      rw [ha.2,hc]
    have hacts : Receiver.Performs (fun a frame => a = near → .sent frame ∈ said c n.log)
        shutting n.receiver _ _ := Receiver.poll_acts h.receiver k hsame
    refine h.perform (h.receiver.poll k) (Receiver.poll_alike n.receiver k).1 hacts ?_
    simpa [Network.step,Network.recover] using hfew
  | forth place flip => exact h.forth place flip hfew hshut
  | back place d flip now => exact h.back place d flip now hnew hends hfew
  | restart settings =>
    have hs := h.stir (stirs_restart n.sender _ (fun _ _ => False) settings)
      (fun _ _ _ hf => hf.elim) hnew hends (by rw [List.append_nil]; exact hfew)
    rw [List.append_nil] at hs
    exact hs

/-- What no move undoes: notes stay, connections stay where they are bound, and a receiver that is
closed stays so. -/
structure Grows (n m : Network) : Prop where
  log : n.log <+: m.log
  stays : ∀ (d : ConnRef) x, n.sender.conns[d]? = some x →
    ∃ y, m.sender.conns[d]? = some y ∧ x.Stays y
  closing : n.receiver.closing = true → m.receiver.closing = true

theorem Grows.refl (n : Network) : n.Grows n :=
  ⟨List.prefix_refl _,fun _ x hx => ⟨x,hx,.refl x⟩,fun h => h⟩

theorem grows_send (n : Network) (e : Sender.Event) : n.Grows (n.send e) where
  log := List.prefix_append _ _
  stays := by
    intro d x hx
    obtain ⟨y,hy,ht⟩ := Sender.react_plays n.sender e d x hx
    obtain ⟨hb,hr,hc,_⟩ := ht.stays
    exact ⟨y,hy,hb,hr,hc⟩
  closing := fun h => h

theorem grows_receive (n : Network) (e : Receiver.Event) : n.Grows (n.receive e) where
  log := List.prefix_append _ _
  stays := fun _ x hx => ⟨x,hx,.refl x⟩
  closing := fun h => Receiver.react_closed h

theorem grows_step (near far : Address) (n : Network) (move : Move) :
    n.Grows (n.step near far move) := by
  have hm := moved near far n move
  generalize n.step near far move = m at hm ⊢
  cases hm with
  | same => exact .refl n
  | send e => exact grows_send n e
  | resume k =>
    refine ⟨List.prefix_append _ _,fun d x hx => ?_,fun h => h⟩
    cases hr : Waiting.ready? n.sender.waiting k with
    | none =>
      refine ⟨x,?_,.refl x⟩
      simp only [Network.resume,Sender.poll_none hr]
      exact hx
    | some call =>
      simp only [Network.resume,Sender.poll_conns hr]
      exact Sender.attempt_stays call hx
  | receive e => exact grows_receive n e
  | recover k =>
    refine ⟨List.prefix_append _ _,fun d x hx => ⟨x,hx,.refl x⟩,fun h => ?_⟩
    show (n.receiver.poll k).1.closing = true
    rw [(Receiver.poll_alike n.receiver k).2,h]
  | restart settings =>
    exact ⟨List.prefix_refl _,
      fun d x hx => ⟨x.requestClose.teardown,by simp [Sender.restart,hx],rfl,rfl,fun _ => rfl⟩,
      fun h => h⟩

theorem Grows.trans {m l : Network} (h : n.Grows m) (hs : m.Grows l) : n.Grows l where
  log := h.log.trans hs.log
  stays := by
    intro d x hx
    obtain ⟨y,hy,hxy⟩ := h.stays d x hx
    obtain ⟨z,hz,hyz⟩ := hs.stays d y hy
    exact ⟨z,hz,hxy.trans hyz⟩
  closing := fun hc => hs.closing (h.closing hc)

theorem Reaches.grows {m : Network} (h : Reaches near far n m) : n.Grows m := by
  induction h with
  | refl => exact .refl n
  | step _ move ih => exact ih.trans (grows_step near far _ move)

theorem Reaches.trans {m l : Network} (h : Reaches near far n m) (hs : Reaches near far m l) :
    Reaches near far n l := by
  induction hs with
  | refl => exact h
  | step _ move ih => exact ih.step move

theorem length_le_of_earlier {log more : List Note} (h : log <+: more) (d : ConnRef) :
    (payloads (said d log)).length ≤ (payloads (said d more)).length := by
  obtain ⟨notes,rfl⟩ := h
  rw [said_append,Connection.payloads_append,List.length_append]
  exact Nat.le_add_right _ _

def Sound (n : Network) : Prop := n.sender.Sound ∧ n.receiver.Sound

theorem sound_start (ss : Sender.Settings) (rs : Receiver.Settings) : (start ss rs).Sound :=
  ⟨Sender.sound_start ss,Receiver.sound_start rs⟩

theorem Sound.send (h : n.Sound) (e : Sender.Event) : (n.send e).Sound := ⟨h.1.react e,h.2⟩

theorem Sound.receive (h : n.Sound) (e : Receiver.Event) : (n.receive e).Sound :=
  ⟨h.1,h.2.react e⟩

theorem Sound.step (h : n.Sound) (near far : Address) (move : Move) :
    (n.step near far move).Sound := by
  have hm := moved near far n move
  generalize n.step near far move = m at hm ⊢
  cases hm with
  | same => exact h
  | send e => exact h.send e
  | resume k => exact ⟨h.1.poll k,h.2⟩
  | receive e => exact h.receive e
  | recover k => exact ⟨h.1,h.2.poll k⟩
  | restart settings => exact ⟨Sender.sound_restart n.sender settings,h.2⟩

theorem Sound.record (h : n.Sound) (near far : Address) (move : Move) {p : PeerId} {x : Peer}
    (hx : n.receiver.registry.peers[p]? = some x) :
    ∃ y, (n.step near far move).receiver.registry.peers[p]? = some y ∧ Registry.Later x y := by
  have hm := moved near far n move
  generalize n.step near far move = m at hm ⊢
  cases hm with
  | same => exact ⟨x,hx,.refl x⟩
  | send e => exact ⟨x,hx,.refl x⟩
  | resume k => exact ⟨x,hx,.refl x⟩
  | receive e =>
    have ha : Receiver.Performs (Receiver.Hears e) True n.receiver (n.receiver.react e).1 _ :=
      Receiver.react_acts h.2 e fun _ => trivial
    exact Registry.Acts.later ha h.2.registry hx
  | recover k =>
    have ha : Receiver.Performs (fun _ _ => True) True n.receiver (n.receiver.poll k).1 _ :=
      Receiver.poll_acts h.2 k fun _ => trivial
    exact Registry.Acts.later ha h.2.registry hx
  | restart settings => exact ⟨x,hx,.refl x⟩

theorem Reaches.sound {m : Network} (h : Reaches near far n m) (hn : n.Sound) : m.Sound := by
  induction h with
  | refl => exact hn
  | step _ move ih => exact ih.step near far move

/-- Nothing is known when the log begins, as long as nobody holds a socket at the watched address. -/
theorem Ties.begin (h : n.Sound) (hlog : n.log = []) (hc : n.sender.conns[c]? = none)
    (hv : n.sender.Vacant near) : Ties near far c shutting n.receiver.registry n where
  sender := h.1
  receiver := h.2
  link := by
    unfold Network.link
    rw [hc,hlog]
    exact Link.Inv.begin h.2.registry
  proper := by
    intro e he hec
    have hlt := h.1.about e he
    rw [hec] at hlt
    exact absurd hlt (Nat.not_lt.mpr (List.getElem?_eq_none_iff.mp hc))
  quiet := by
    intro d x _ hx hb
    obtain ⟨hclosed,hheld⟩ := Sender.vacant_iff.mp hv d x hx hb
    exact ⟨hclosed,hheld,by rw [hlog]; rfl⟩
  ends := by
    intro x hx
    rw [hc] at hx
    cases hx

/-- From `n` to `m` no connection but `c` was made at the watched address, `c` goes from there to
`far`, its fragment numbers have not run out, and the receiver is not closed unless it is shutting. -/
structure Sole (near far : Address) (c : ConnRef) (shutting : Prop) (n m : Network) : Prop where
  new : ∀ (d : ConnRef) x, m.sender.conns[d]? = some x → x.bound = near →
    n.sender.conns[d]? = none → d = c
  ends : ∀ x, m.sender.conns[c]? = some x → x.bound = near ∧ x.remote = far
  few : (payloads (said c m.log)).length < Signed.fragmentLimit
  shut : m.receiver.closing = true → shutting

theorem Sole.earlier {m l : Network} (h : Sole near far c shutting n m) (hg : l.Grows m) :
    Sole near far c shutting n l where
  new := by
    intro d x hx hb hd
    obtain ⟨y,hy,hxy⟩ := hg.stays d x hx
    exact h.new d y hy (by rw [hxy.bound,hb]) hd
  ends := by
    intro x hx
    obtain ⟨y,hy,hxy⟩ := hg.stays c x hx
    obtain ⟨hb,hr⟩ := h.ends y hy
    exact ⟨by rw [← hxy.bound,hb],by rw [← hxy.remote,hr]⟩
  few := Nat.lt_of_le_of_lt (length_le_of_earlier hg.log c) h.few
  shut := fun hc => h.shut (hg.closing hc)

theorem Ties.reach {m : Network} (hr : Reaches near far n m) (h : Ties near far c shutting r₀ n)
    (hm : Sole near far c shutting n m) : Ties near far c shutting r₀ m := by
  induction hr with
  | refl => exact h
  | @step l hl move ih =>
    have hn := ih (hm.earlier (grows_step near far l move))
    refine hn.step move (fun d x hx hb hd => hm.new d x hx hb ?_) hm.ends hm.few hm.shut
    cases hd' : n.sender.conns[d]? with
    | none => rfl
    | some y =>
      obtain ⟨z,hz,_⟩ := hl.grows.stays d y hd'
      rw [hd] at hz
      cases hz

end

end Network
end ReliableTransport
