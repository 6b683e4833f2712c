import ReliableTransport.Proofs.Delivery
import ReliableTransport.Proofs.Patience

/-! A network that goes on without faults and without ticks (`Network.Calm`): the connection is woken
when it is late, what is sent arrives in order, calls that were woken try again, and the application
reads all there is. As long as both sides are open (`Network.Fair`) they stay so. -/
namespace ReliableTransport

open Connection (payloads leaveFrame lifeFrame)

namespace Network

/-- What whoever reads from an address can have at once. -/
def unread (n : Network) (a : Address) : Bytes :=
  (((n.receiver.target a).bind fun p => n.receiver.registry.peers[p]?).map (·.inbox.unread)).getD []

def emptied (n : Network) (a : Address) : Network :=
  if n.unread a = [] then n else n.receive (.read a (n.unread a).length)

/-- A network and how far it has come: what was noted before `place` has arrived, and no clock has
shown more than `clock`. -/
structure Course where
  net : Network
  place : Nat
  clock : Nat

/-- One step without faults: the connection is woken that has made no progress for too long, a call
tries again, or the next note of the log is seen to. A datagram arrives as it was sent, and what it
brings is read. -/
inductive Calm (near far : Address) (c : ConnRef) : Course → Course → Prop
  | wake {n : Network} {i t : Nat} {x : Connection} (now : Nat) (ht : t ≤ now)
      (hx : n.sender.conns[c]? = some x)
      (hlate : x.outbox.progress + n.sender.settings.resend.nanos < now) :
      Calm near far c ⟨n,i,t⟩ ⟨n.step near far (.sender (.wake c now)),i,now⟩
  | resume {n : Network} {i t : Nat} (k : CallId) :
      Calm near far c ⟨n,i,t⟩ ⟨n.step near far (.resume k),i,t⟩
  | forth {n : Network} {i t : Nat} {frame : Frame} (h : n.log[i]? = some (.conn c (.sent frame))) :
      Calm near far c ⟨n,i,t⟩
        ⟨((n.emptied near).step near far (.forth i none)).emptied near,i + 1,t⟩
  | back {n : Network} {i t : Nat} {frame : Frame} (now : Nat) (ht : t ≤ now)
      (h : n.log[i]? = some (.registry (.sent near frame))) :
      Calm near far c ⟨n,i,t⟩ ⟨n.step near far (.back i c none now),i + 1,now⟩
  | pass {n : Network} {i t : Nat} {note : Note} (h : n.log[i]? = some note)
      (hc : ∀ frame, note ≠ .conn c (.sent frame))
      (hr : ∀ frame, note ≠ .registry (.sent near frame)) : Calm near far c ⟨n,i,t⟩ ⟨n,i + 1,t⟩

inductive Smooth (near far : Address) (c : ConnRef) (a : Course) : Course → Prop
  | refl : Smooth near far c a a
  | step {b d : Course} (h : Smooth near far c a b) (hs : Calm near far c b d) :
      Smooth near far c a d

section

variable {near far : Address} {c : ConnRef} {shutting : Prop} {r₀ : Registry} {p : PeerId}
  {n : Network}

theorem Calm.once {a b : Course} (h : Calm near far c a b) : Smooth near far c a b :=
  Smooth.refl.step h

theorem Smooth.trans {a b d : Course} (h : Smooth near far c a b) (hs : Smooth near far c b d) :
    Smooth near far c a d := by
  induction hs with
  | refl => exact h
  | step _ hs ih => exact ih.step hs

theorem step_read (near far : Address) (n : Network) (a : Address) (room : Nat) :
    n.step near far (.receiver (.read a room)) = n.receive (.read a room) := by
  have ha : Receiver.Allows near (.read a room) := trivial
  simp only [Network.step]
  rw [if_pos ha]

theorem reaches_emptied (n : Network) (a : Address) : Reaches near far n (n.emptied a) := by
  unfold emptied
  split
  · exact .refl
  · rw [← step_read near far n a]
    exact Reaches.refl.step _

theorem Smooth.reaches {a b : Course} (h : Smooth near far c a b) :
    Reaches near far a.net b.net := by
  induction h with
  | refl => exact .refl
  | step _ hs ih =>
    cases hs with
    | wake now ht hx hlate => exact ih.step (.sender (.wake c now))
    | resume k => exact ih.step (.resume k)
    | forth hlog =>
      refine ih.trans ?_
      exact ((reaches_emptied _ near).step _).trans (reaches_emptied _ near)
    | @back _ i _ _ now ht hlog => exact ih.step (.back i c none now)
    | pass hlog hc hr => exact ih

theorem Ties.outbox (h : Ties near far c shutting r₀ n) :
    ∀ x, n.sender.conns[c]? = some x → x.outbox.Untouched ∨ x.outbox.Keeps (n.pushed c) := by
  intro x hx
  rcases (h.link.conduct x hx).outbox with ⟨hu,_⟩ | hk
  · exact .inl hu
  · exact .inr hk

theorem Ties.patient (h : Ties near far c shutting r₀ n) (hp : n.sender.Patient c) (move : Move) :
    (n.step near far move).sender.Patient c := by
  have hm := moved near far n move
  generalize n.step near far move = m at hm ⊢
  cases hm with
  | same => exact hp
  | send e => exact hp.react h.sender h.outbox e
  | resume k => exact hp.poll k
  | receive e => exact hp
  | recover k => exact hp
  | restart settings => exact fun w hw => by cases hw

theorem patient_reach {m : Network} (hr : Reaches near far n m)
    (h : Ties near far c shutting r₀ n) (hp : n.sender.Patient c)
    (hm : Sole near far c shutting n m) : m.sender.Patient c := by
  induction hr with
  | refl => exact hp
  | @step l hl move ih =>
    have hsole := hm.earlier (grows_step near far l move)
    exact (h.reach hl hsole).patient (ih hsole) move

/-- Both sides of the connection `c` are open, `p` is the only record there ever was of its address,
and a whole payload fits into its inbox. -/
structure Open (near : Address) (c : ConnRef) (p : PeerId) (n : Network) : Prop where
  speaks : ∃ x, n.sender.conns[c]? = some x ∧ x.outbox.established = true ∧ x.closing = false ∧
    x.closed = false
  hears : n.receiver.registry.connected.get? near = some p
  record : ∃ y, n.receiver.registry.peers[p]? = some y ∧ y.closing = false
  sole : n.Only near p
  listens : n.receiver.closing = false
  room : Frame.maxPayload ≤ n.receiver.settings.capacity

theorem Open.speaking (h : Open near c p n) {x : Connection}
    (hx : n.sender.conns[c]? = some x) :
    x.outbox.established = true ∧ x.closing = false ∧ x.closed = false := by
  obtain ⟨y,hy,hopen⟩ := h.speaks
  rw [hx] at hy
  rw [Option.some.inj hy]
  exact hopen

structure Fair (near far : Address) (c : ConnRef) (shutting : Prop) (r₀ : Registry) (p : PeerId)
    (n : Network) : Prop extends Open near c p n where
  ties : Ties near far c shutting r₀ n
  pledged : Pledged c n
  patient : n.sender.Patient c
  few : (n.pushed c).length < Signed.fragmentLimit

theorem Fair.receive (h : Fair near far c shutting r₀ p n) {move : Move} {e : Receiver.Event}
    (hm : n.step near far move = n.receive e) (he : e ≠ .close)
    (hconn : (n.receive e).receiver.registry.connected.get? near = some p)
    (hrecord : ∃ y, (n.receive e).receiver.registry.peers[p]? = some y ∧ y.closing = false)
    (hsole : (n.receive e).Only near p) : Fair near far c shutting r₀ p (n.receive e) := by
  have halike := Receiver.react_alike n.receiver he
  have hclosing : (n.receive e).receiver.closing = false := halike.2.trans h.listens
  have hpushed : (n.receive e).pushed c = n.pushed c := by
    simp [pushed,Network.receive]
  have hfew' : ((n.receive e).pushed c).length < Signed.fragmentLimit := by
    rw [hpushed]
    exact h.few
  have hfew : (payloads (said c (n.step near far move).log)).length < Signed.fragmentLimit := by
    rw [hm]
    exact hfew'
  have hties : Ties near far c shutting r₀ (n.step near far move) := by
    refine h.ties.step move (fun d x hx _ hd => ?_) (fun x hx => ?_) hfew (fun hc => ?_)
    · rw [hm] at hx
      exact absurd (hx.symm.trans hd) (by simp)
    · rw [hm] at hx
      exact h.ties.ends x hx
    · rw [hm,hclosing] at hc
      cases hc
  have hpledged := h.pledged.step h.ties move hfew
  rw [hm] at hties hpledged
  have hroom : Frame.maxPayload ≤ (n.receive e).receiver.settings.capacity := by
    rw [show (n.receive e).receiver.settings = n.receiver.settings from halike.1]
    exact h.room
  exact ⟨⟨h.speaks,hconn,hrecord,hsole,hclosing,hroom⟩,hties,hpledged,h.patient,hfew'⟩

/-- A note of the receiver; what it has sent to the address is an acknowledgement. -/
def Plain (near : Address) (note : Note) : Prop :=
  ∃ deed, note = .registry deed ∧ ∀ frame, deed = .sent near frame → frame.kind = .adat

/-- From `n` to `m` the sender does nothing, and what the receiver does is plain. -/
structure Takes (near : Address) (n m : Network) : Prop where
  sender : m.sender = n.sender
  settings : m.receiver.settings = n.receiver.settings
  log : ∃ notes, m.log = n.log ++ notes ∧ ∀ note ∈ notes, Plain near note

theorem Takes.refl (near : Address) (n : Network) : n.Takes near n :=
  ⟨rfl,rfl,[],by simp,by simp⟩

theorem Takes.trans {m l : Network} (h : n.Takes near m) (hs : m.Takes near l) :
    n.Takes near l := by
  obtain ⟨notes,hl,hp⟩ := h.log
  obtain ⟨more,hl',hp'⟩ := hs.log
  refine ⟨hs.sender.trans h.sender,hs.settings.trans h.settings,notes ++ more,?_,?_⟩
  · rw [hl',hl,List.append_assoc]
  · intro note hm
    rcases List.mem_append.mp hm with hm | hm
    · exact hp note hm
    · exact hp' note hm

theorem Takes.pushed {m : Network} (h : n.Takes near m) (c : ConnRef) :
    m.pushed c = n.pushed c := by
  obtain ⟨notes,hl,hp⟩ := h.log
  have hsaid : said c notes = [] := by
    refine List.filterMap_eq_nil_iff.mpr fun note hm => ?_
    obtain ⟨deed,rfl,_⟩ := hp note hm
    rfl
  rw [Network.pushed,hl,said_append,hsaid,List.append_nil]
  rfl

theorem takes_receive {e : Receiver.Event}
    (h : ∀ deed ∈ e.deeds n.receiver (n.receiver.react e).1 (n.receiver.react e).2,
      ∀ frame, deed = .sent near frame → frame.kind = .adat) : n.Takes near (n.receive e) := by
  refine ⟨rfl,Receiver.react_settings _ e,_,rfl,fun note hm => ?_⟩
  obtain ⟨deed,hd,rfl⟩ := List.mem_map.mp hm
  exact ⟨deed,rfl,h deed hd⟩

theorem Fair.readable (h : Fair near far c shutting r₀ p n) :
    n.receiver.registry.readable near = .live p := by
  simp only [Registry.readable,h.hears]

theorem Fair.unread_eq (h : Fair near far c shutting r₀ p n) {y : Peer}
    (hy : n.receiver.registry.peers[p]? = some y) : n.unread near = y.inbox.unread := by
  simp [unread,Receiver.target,h.readable,hy]

theorem Fair.modify (h : Fair near far c shutting r₀ p n) {move : Move} {e : Receiver.Event}
    (hm : n.step near far move = n.receive e) (he : e ≠ .close) {y : Peer}
    (hy : n.receiver.registry.peers[p]? = some y) {f : Peer → Peer}
    (hr : (n.receive e).receiver.registry = n.receiver.registry.modify p f)
    (hc : (f y).closing = y.closing) :
    Fair near far c shutting r₀ p (n.receive e) ∧
      (n.receive e).receiver.registry.peers[p]? = some (f y) := by
  have hp : (n.receive e).receiver.registry.peers[p]? = some (f y) := by
    rw [hr]
    exact Registry.peers_modify_self hy
  obtain ⟨z,hz,hopen⟩ := h.record
  rw [hy] at hz
  obtain rfl := Option.some.inj hz
  refine ⟨h.receive hm he ?_ ⟨_,hp,by rw [hc,hopen]⟩ fun q w hw haw => ?_,hp⟩
  · rw [hr]
    exact h.hears
  · rw [hr] at hw
    obtain ⟨x,hx,rfl⟩ := Registry.of_peers_modify hw
    by_cases hq : p = q
    · exact hq.symm
    · rw [if_neg hq] at haw
      exact h.sole q x hx haw

theorem Fair.addr (h : Fair near far c shutting r₀ p n) {y : Peer}
    (hy : n.receiver.registry.peers[p]? = some y) : y.addr = near := by
  obtain ⟨z,hz,ha,_⟩ := h.ties.receiver.registry.connected near p h.hears
  rw [hy] at hz
  rw [Option.some.inj hz,ha]

/-- How far both sides are: the record has taken what is acknowledged, and nothing that was not
sent. -/
theorem Fair.numbers (h : Fair near far c shutting r₀ p n) (hr₀ : r₀.peers = []) {x : Connection}
    {y : Peer} (hx : n.sender.conns[c]? = some x) (hy : n.receiver.registry.peers[p]? = some y) :
    x.outbox.Keeps (n.pushed c) ∧
      x.outbox.lastAcked.toInt ≤ y.inbox.lastAccepted.toInt ∧
      y.inbox.lastAccepted.toInt ≤ x.outbox.highestSent.toInt := by
  obtain ⟨he,_⟩ := h.speaking hx
  have hkeeps : x.outbox.Keeps (n.pushed c) := (h.ties.link.conduct x hx).keeps he
  have hnew := Link.all_new hr₀ p
  have hle := h.ties.taken_le hy (h.addr hy) hnew
  have hreach : (n.link c).reach = x.outbox.highestSent.toInt := by
    simp only [Link.reach,Network.link,hx]
  have hacked := hkeeps.acked
  have hacked_le := hkeeps.acked_le
  have htaken : y.taken = y.inbox.lastAccepted.toInt := rfl
  obtain ⟨k,hk,_⟩ := h.ties.taken_of_new hy (h.addr hy) hnew
  refine ⟨hkeeps,?_,by omega⟩
  by_cases hz : 0 < x.outbox.lastAcked.toInt
  · obtain ⟨q,w,hw,haw,_,hq⟩ := h.ties.link.point x hx hz
    obtain rfl := h.sole q w hw haw
    rw [show (n.link c).registry = n.receiver.registry from rfl,hy] at hw
    obtain rfl := Option.some.inj hw
    exact hq
  · omega

theorem Fair.next_eq (h : Fair near far c shutting r₀ p n) (hr₀ : r₀.peers = []) {y : Peer}
    (hy : n.receiver.registry.peers[p]? = some y) :
    y.inbox.next.toInt = y.inbox.lastAccepted.toInt + 1 ∧ 0 ≤ y.inbox.lastAccepted.toInt := by
  obtain ⟨x,hx,_⟩ := h.speaks
  obtain ⟨hkeeps,hle,hge⟩ := h.numbers hr₀ hx hy
  have hacked := hkeeps.acked
  have hhigh := hkeeps.highest_le
  have hfew := h.few
  unfold Signed.fragmentLimit at hfew
  refine ⟨?_,by omega⟩
  rw [Link.next_eq]
  exact Signed.toInt_succ (by omega)

theorem Fair.empty (h : Fair near far c shutting r₀ p n) {y : Peer}
    (hy : n.receiver.registry.peers[p]? = some y) :
    Fair near far c shutting r₀ p (n.emptied near) ∧ n.Takes near (n.emptied near) ∧
      ∃ z, (n.emptied near).receiver.registry.peers[p]? = some z ∧
        z.inbox.next = y.inbox.next ∧ z.inbox.unread = [] := by
  unfold emptied
  rw [h.unread_eq hy]
  by_cases hu : y.inbox.unread = []
  · rw [if_pos hu]
    exact ⟨h,.refl near n,y,hy,rfl,hu⟩
  · rw [if_neg hu]
    have hpos : 0 < y.inbox.unread.length := List.length_pos_iff.mpr hu
    have hreact : n.receiver.react (.read near y.inbox.unread.length) =
        n.receiver.enter (.read p y.inbox.unread.length) := by
      simp only [Receiver.react,h.listens,h.readable,Bool.false_eq_true,if_false,
        Nat.ne_of_gt hpos]
    have htry := Receiver.attempt_read hy hpos
    rw [if_pos hu] at htry
    have hr : (n.receive (.read near y.inbox.unread.length)).receiver.registry =
        n.receiver.registry.modify p fun peer =>
          { peer with inbox := (y.inbox.read y.inbox.unread.length).2 } := by
      show (n.receiver.react _).1.registry = _
      rw [hreact,Receiver.enter_registry,htry]
      rfl
    obtain ⟨hf,hz⟩ := h.modify (step_read near far n near _) (by simp) hy hr rfl
    refine ⟨hf,takes_receive fun deed hd frame he => ?_,_,hz,rfl,?_⟩
    · subst he
      simp only [Receiver.Event.deeds,Receiver.told] at hd
      split at hd
      · cases hd
      · obtain ⟨o,_,ho⟩ := List.mem_filterMap.mp hd
        split at ho
        · split at ho
          · cases ho
          · obtain ⟨q,_,hq⟩ := Option.map_eq_some_iff.mp ho
            cases hq
        · cases ho
    · simp [Inbox.read]

def advanced (next fragment : Int32) : Int32 := if fragment = next then next + 1 else next

/-- A fragment that fits is taken if it is the next one, and either way answered. -/
theorem onData_of_fits {r : Receiver} {a : Address} {y : Peer} {fragment : Int32}
    {payload : Bytes} (hc : r.registry.connected.get? a = some p)
    (hy : r.registry.peers[p]? = some y) (hcl : y.closing = false)
    (hfree : payload.length ≤ y.inbox.free) :
    ∃ inbox : Inbox, inbox.next = advanced y.inbox.next fragment ∧
      (fragment ≠ y.inbox.next → inbox = y.inbox) ∧
      (r.onData a fragment payload).1.registry =
        r.registry.modify p (fun peer => { peer with inbox, silence := peer.silence.reset }) ∧
      (r.onData a fragment payload).2 =
        [.send a (Receiver.reply .adat inbox.lastAccepted inbox.window)] := by
  by_cases hf : fragment = y.inbox.next
  · have ho : y.inbox.offer fragment payload = some
        { y.inbox with unread := y.inbox.unread ++ payload, next := y.inbox.next + 1 } :=
      Inbox.offer_eq_some_iff.mpr ⟨⟨hf,hfree⟩,rfl⟩
    rw [Receiver.onData_of_taken hc hy hcl ho]
    exact ⟨_,by rw [advanced,if_pos hf],fun hne => absurd hf hne,rfl,rfl⟩
  · have ho : y.inbox.offer fragment payload = none := by
      unfold Inbox.offer
      rw [if_neg fun h => hf h.1]
    rw [Receiver.onData_of_refused hc hy hcl ho]
    exact ⟨_,by rw [advanced,if_neg hf],fun _ => rfl,rfl,rfl⟩

theorem mem_tookFrom {a : Address} {r t : Receiver} {deed : Registry.Deed}
    (h : deed ∈ Receiver.tookFrom a r t) : ∃ q piece, deed = .took q piece := by
  unfold Receiver.tookFrom at h
  split at h
  · cases h
  · split at h
    · split at h
      · cases h
      · exact ⟨_,_,List.mem_singleton.mp h⟩
    · cases h

theorem Fair.hear (h : Fair near far c shutting r₀ p n) (hr₀ : r₀.peers = []) {y : Peer}
    (hy : n.receiver.registry.peers[p]? = some y) (hu : y.inbox.unread = []) {i : Nat}
    {frame : Frame} (hlog : n.log[i]? = some (.conn c (.sent frame))) (hk : frame.kind = .data) :
    Fair near far c shutting r₀ p (n.step near far (.forth i none)) ∧
      n.Takes near (n.step near far (.forth i none)) ∧
      ∃ z notes, (n.step near far (.forth i none)).receiver.registry.peers[p]? = some z ∧
        z.inbox.next = advanced y.inbox.next frame.fragment ∧
        (frame.fragment ≠ y.inbox.next → z.inbox = y.inbox) ∧
        (n.step near far (.forth i none)).log = n.log ++ notes ++
          [.registry (.sent near (Receiver.reply .adat z.inbox.lastAccepted z.inbox.window))] := by
  obtain ⟨x,hx,_⟩ := h.speaks
  obtain ⟨hb,hrem⟩ := h.ties.ends x hx
  obtain ⟨y',hy',hopen⟩ := h.record
  rw [hy] at hy'
  obtain rfl := Option.some.inj hy'
  have hfits : frame.Fits := (h.ties.link.conduct x hx).fits (mem_said (List.mem_of_getElem? hlog))
  have hm : n.step near far (.forth i none) = n.receive (.datagram near frame.encode) := by
    simp only [Network.step,hlog,hx,hrem,if_true,hb]
    rfl
  have hreact : n.receiver.react (.datagram near frame.encode) =
      n.receiver.onData near frame.fragment frame.payload := by
    simp only [Receiver.react,Receiver.onDatagram,h.listens,Bool.false_eq_true,if_false,
      Frame.receive_encode hfits,hk]
  have hfree : frame.payload.length ≤ y.inbox.free := by
    obtain ⟨hcap,_⟩ := h.ties.link.kept p y hy (Link.all_new hr₀ p)
    have hroom := h.room
    have hlen : frame.payload.length ≤ Frame.maxPayload := hfits
    rw [Inbox.free,hu,hcap,List.length_nil]
    omega
  obtain ⟨inbox,hnext,hsame,hreg,hout⟩ := onData_of_fits h.hears hy hopen hfree
  rw [← hreact] at hreg hout
  have hr : (n.receive (.datagram near frame.encode)).receiver.registry =
      n.receiver.registry.modify p fun peer =>
        { peer with inbox, silence := peer.silence.reset } := hreg
  obtain ⟨hf,hz⟩ := h.modify hm (by simp) hy hr rfl
  have hsent : Receiver.sentBy (n.receiver.react (.datagram near frame.encode)).2 =
      [.sent near (Receiver.reply .adat inbox.lastAccepted inbox.window)] := by
    rw [hout]
    rfl
  rw [hm]
  refine ⟨hf,takes_receive fun deed hd reply he => ?_,_,
    (Receiver.tookFrom near n.receiver
      (n.receiver.react (.datagram near frame.encode)).1).map .registry,hz,hnext,hsame,?_⟩
  · rcases List.mem_append.mp hd with hd | hd
    · obtain ⟨q,piece,rfl⟩ := mem_tookFrom hd
      cases he
    · rw [hsent,he,List.mem_singleton] at hd
      obtain ⟨_,rfl⟩ := Registry.Deed.sent.inj hd
      rfl
  · simp only [Network.receive,Receiver.Event.deeds,hsent,List.map_append,List.map_cons,
      List.map_nil,List.append_assoc]

theorem Takes.log_at {m : Network} (h : n.Takes near m) {i : Nat} {note : Note}
    (hi : n.log[i]? = some note) : m.log[i]? = some note := by
  obtain ⟨notes,hl,_⟩ := h.log
  rw [hl,List.getElem?_append_left (List.getElem?_eq_some_iff.mp hi).1]
  exact hi

theorem Fair.deliver (h : Fair near far c shutting r₀ p n) (hr₀ : r₀.peers = []) {y : Peer}
    (hy : n.receiver.registry.peers[p]? = some y) {i : Nat} {frame : Frame}
    (hlog : n.log[i]? = some (.conn c (.sent frame))) (hk : frame.kind = .data) (t : Nat) :
    ∃ m z, Calm near far c ⟨n,i,t⟩ ⟨m,i + 1,t⟩ ∧ Fair near far c shutting r₀ p m ∧
      n.Takes near m ∧ m.receiver.registry.peers[p]? = some z ∧
      z.inbox.next = advanced y.inbox.next frame.fragment := by
  obtain ⟨hf₁,ht₁,y₁,hy₁,hn₁,hu₁⟩ := h.empty hy
  obtain ⟨hf₂,ht₂,y₂,_,hy₂,hn₂,_⟩ := hf₁.hear hr₀ hy₁ hu₁ (ht₁.log_at hlog) hk
  obtain ⟨hf₃,ht₃,y₃,hy₃,hn₃,_⟩ := hf₂.empty hy₂
  exact ⟨_,y₃,.forth hlog,hf₃,(ht₁.trans ht₂).trans ht₃,hy₃,by rw [hn₃,hn₂,hn₁]⟩

/-- A sign of life is answered with the room there is and what was taken so far. -/
theorem Fair.beat (h : Fair near far c shutting r₀ p n) (hr₀ : r₀.peers = []) {y : Peer}
    (hy : n.receiver.registry.peers[p]? = some y) {i : Nat}
    (hlog : n.log[i]? = some (.conn c (.sent lifeFrame))) (t : Nat) :
    ∃ m z notes, Calm near far c ⟨n,i,t⟩ ⟨m,i + 1,t⟩ ∧ Fair near far c shutting r₀ p m ∧
      n.Takes near m ∧ m.receiver.registry.peers[p]? = some z ∧ z.inbox.next = y.inbox.next ∧
      z.inbox.unread = [] ∧ m.log = n.log ++ notes ++ [.registry (.sent near
        (Receiver.reply .adat y.inbox.lastAccepted
          (Frame.windowOf n.receiver.settings.capacity)))] := by
  obtain ⟨hf₁,ht₁,y₁,hy₁,hn₁,hu₁⟩ := h.empty hy
  have hne : lifeFrame.fragment ≠ y₁.inbox.next := by
    obtain ⟨hn,hpos⟩ := hf₁.next_eq hr₀ hy₁
    intro he
    have hm : lifeFrame.fragment.toInt = -1 := by decide
    rw [he] at hm
    omega
  obtain ⟨hf₂,ht₂,y₂,notes,hy₂,hn₂,hsame,hl₂⟩ := hf₁.hear hr₀ hy₁ hu₁ (ht₁.log_at hlog) rfl
  have hinbox : y₂.inbox = y₁.inbox := hsame hne
  have hu₂ : y₂.inbox.unread = [] := by rw [hinbox,hu₁]
  have hidle : ((n.emptied near).step near far (.forth i none)).emptied near =
      (n.emptied near).step near far (.forth i none) := by
    rw [Network.emptied,hf₂.unread_eq hy₂,if_pos hu₂]
  have hcalm : Calm near far c ⟨n,i,t⟩ ⟨_,i + 1,t⟩ := .forth hlog
  rw [hidle] at hcalm
  obtain ⟨more,hl₁,_⟩ := ht₁.log
  refine ⟨_,y₂,more ++ notes,hcalm,hf₂,ht₁.trans ht₂,hy₂,by rw [hinbox,hn₁],hu₂,?_⟩
  have hlast : y₂.inbox.lastAccepted = y.inbox.lastAccepted := by
    rw [hinbox,Inbox.lastAccepted,hn₁,Inbox.lastAccepted]
  have hwindow : y₂.inbox.window = Frame.windowOf n.receiver.settings.capacity := by
    obtain ⟨hcap,_⟩ := hf₂.ties.link.kept p y₂ hy₂ (Link.all_new hr₀ p)
    rw [Inbox.window,Inbox.free,hu₂,hcap,(ht₁.trans ht₂).settings]
    rfl
  rw [hl₂,hl₁,hlast,hwindow]
  simp only [List.append_assoc]

theorem Fair.sweep (hr₀ : r₀.peers = []) (t : Nat) (frames : List Frame) :
    ∀ {n : Network} {i : Nat} {y : Peer}, Fair near far c shutting r₀ p n →
      n.receiver.registry.peers[p]? = some y → (∀ frame ∈ frames, frame.kind = .data) →
      (∀ (j : Nat) frame, frames[j]? = some frame →
        n.log[i + j]? = some (.conn c (.sent frame))) →
      ∃ m z, Smooth near far c ⟨n,i,t⟩ ⟨m,i + frames.length,t⟩ ∧
        Fair near far c shutting r₀ p m ∧ n.Takes near m ∧
        m.receiver.registry.peers[p]? = some z ∧
        z.inbox.next = (frames.map (·.fragment)).foldl advanced y.inbox.next := by
  induction frames with
  | nil =>
    intro n i y h hy _ _
    exact ⟨n,y,.refl,h,.refl near n,hy,rfl⟩
  | cons frame frames ih =>
    intro n i y h hy hk hlog
    have hfirst := hlog 0 frame rfl
    obtain ⟨m,z,hs,hf,ht,hz,hn⟩ := h.deliver hr₀ hy hfirst (hk _ List.mem_cons_self) t
    have hrest : ∀ (j : Nat) f, frames[j]? = some f →
        m.log[i + 1 + j]? = some (.conn c (.sent f)) := by
      intro j f hj
      have hl := hlog (j + 1) f hj
      rw [show i + 1 + j = i + (j + 1) by omega]
      exact ht.log_at hl
    obtain ⟨m',z',hs',hf',ht',hz',hn'⟩ :=
      ih hf hz (fun f hf => hk f (List.mem_cons_of_mem _ hf)) hrest
    refine ⟨m',z',hs.once.trans ?_,hf',ht.trans ht',hz',by rw [hn',hn]; rfl⟩
    rw [List.length_cons,show i + (frames.length + 1) = i + 1 + frames.length by omega]
    exact hs'

theorem Fair.send (h : Fair near far c shutting r₀ p n) {move : Move} {m : Network}
    (hm : n.step near far move = m) (hr : m.receiver = n.receiver)
    (hlen : m.sender.conns.length = n.sender.conns.length) (hpatient : m.sender.Patient c)
    (hfew : (m.pushed c).length < Signed.fragmentLimit)
    (hspeaks : ∃ x, m.sender.conns[c]? = some x ∧ x.outbox.established = true ∧
      x.closing = false ∧ x.closed = false) : Fair near far c shutting r₀ p m := by
  subst hm
  have hties : Ties near far c shutting r₀ (n.step near far move) := by
    refine h.ties.step move (fun d x hx _ hd => ?_) (fun x hx => ?_) hfew (fun hc => ?_)
    · have hlt := (List.getElem?_eq_some_iff.mp hx).1
      have hge := List.getElem?_eq_none_iff.mp hd
      omega
    · obtain ⟨y,hy,_⟩ := h.speaks
      obtain ⟨hb,hrem⟩ := h.ties.ends y hy
      obtain ⟨z,hz,hyz⟩ := (grows_step near far n move).stays c y hy
      rw [hx] at hz
      obtain rfl := Option.some.inj hz
      exact ⟨by rw [hyz.bound,hb],by rw [hyz.remote,hrem]⟩
    · rw [hr,h.listens] at hc
      cases hc
  have hopen : Open near c p (n.step near far move) := by
    refine ⟨hspeaks,?_,?_,?_,?_,?_⟩
    · rw [hr]
      exact h.hears
    · rw [hr]
      exact h.record
    · rw [Only,hr]
      exact h.sole
    · rw [hr]
      exact h.listens
    · rw [hr]
      exact h.room
  exact ⟨hopen,hties,h.pledged.step h.ties move hfew,hpatient,hfew⟩

theorem Fair.wake (h : Fair near far c shutting r₀ p n) {x : Connection}
    (hx : n.sender.conns[c]? = some x) (now : Nat) {frames : List (Int32 × Bytes)} {b : Outbox}
    (hb : x.outbox.flush now Sender.minWindow n.sender.settings.resend.nanos = (frames,b)) :
    ∃ m, n.step near far (.sender (.wake c now)) = m ∧ Fair near far c shutting r₀ p m ∧
      m.receiver = n.receiver ∧ m.sender.held = n.sender.held ∧
      m.sender.conns[c]? = some { x with outbox := b } ∧ m.pushed c = n.pushed c ∧
      m.log = n.log ++ (frames.map Sender.dataFrame ++ [lifeFrame]).map fun frame =>
        .conn c (.sent frame) := by
  obtain ⟨he,hopen,hup⟩ := h.speaking hx
  have hconduct := h.ties.link.conduct x hx
  have hpump : x.pumping = true := by
    rcases hconduct.awake he with hp | hc | hc
    · exact hp
    · rw [hopen] at hc
      cases hc
    · rw [hup] at hc
      cases hc
  have hreact : n.sender.react (.wake c now) =
      (n.sender.modify c fun conn => { conn with outbox := b },
        (frames.map Sender.dataFrame ++ [lifeFrame]).map (.send c)) := by
    simp only [Sender.react,Sender.onWake,hx,hpump,hopen,hup,hb,Bool.not_true,Bool.false_eq_true,
      Bool.or_false,if_false]
  have hm : n.step near far (.sender (.wake c now)) = n.send (.wake c now) := by
    have ha : n.sender.Allows far (.wake c now) := trivial
    simp only [Network.step]
    rw [if_pos ha]
  have hlog : (n.send (.wake c now)).log =
      n.log ++ (frames.map Sender.dataFrame ++ [lifeFrame]).map fun frame =>
        .conn c (.sent frame) := by
    simp only [Network.send,Note.ofEvent,Note.ofCall,Note.ofPushes,Sender.Event.subject,hreact,
      List.nil_append,List.map_map]
    rfl
  have hsender : (n.send (.wake c now)).sender =
      n.sender.modify c fun conn => { conn with outbox := b } := by
    show (n.sender.react (.wake c now)).1 = _
    rw [hreact]
  have hget : (n.send (.wake c now)).sender.conns[c]? = some { x with outbox := b } := by
    rw [hsender]
    exact Sender.conns_modify_self hx _
  have hpushed : (n.send (.wake c now)).pushed c = n.pushed c := by
    rw [pushed,hlog,said_append,Connection.payloads_append]
    have hnone : payloads (said c ((frames.map Sender.dataFrame ++ [lifeFrame]).map fun frame =>
        Note.conn c (.sent frame))) = [] := by
      have hs : said c ((frames.map Sender.dataFrame ++ [lifeFrame]).map fun frame =>
          Note.conn c (.sent frame)) =
          (frames.map Sender.dataFrame ++ [lifeFrame]).map .sent := by
        simp [said,List.filterMap_map,Function.comp_def]
      rw [hs,Connection.payloads_sent]
    rw [hnone,List.append_nil]
    rfl
  have hest : b.established = true := by
    have hburst := Outbox.burst_keeps now Sender.minWindow n.sender.settings.resend.nanos
      (x.outbox.slots.length + 1) x.outbox
    have hlast : b.lastAcked = x.outbox.lastAcked := by
      have hflush : (x.outbox.flush now Sender.minWindow n.sender.settings.resend.nanos).2.lastAcked =
          x.outbox.lastAcked := hburst.1
      rwa [hb] at hflush
    rwa [Outbox.established,hlast]
  refine ⟨_,hm,?_,rfl,?_,hget,hpushed,hlog⟩
  · refine h.send hm rfl ?_ ?_ (by rw [hpushed]; exact h.few) ⟨_,hget,hest,hopen,hup⟩
    · rw [hsender]
      simp [Sender.modify]
    · exact h.patient.react h.ties.sender h.ties.outbox (.wake c now)
  · rw [hsender]
    exact Sender.held_modify _ _ _

theorem Fair.heed (h : Fair near far c shutting r₀ p n) {x : Connection}
    (hx : n.sender.conns[c]? = some x) {i : Nat} {frame : Frame}
    (hlog : n.log[i]? = some (.registry (.sent near frame))) (hk : frame.kind = .adat)
    (now : Nat) :
    ∃ m y, n.step near far (.back i c none now) = m ∧ Fair near far c shutting r₀ p m ∧
      m.receiver = n.receiver ∧ m.log = n.log ∧ m.sender.held = n.sender.held ∧
      m.sender.conns[c]? = some y ∧
      y.outbox = (x.outbox.acknowledge frame.fragment frame.window now).2 := by
  obtain ⟨he,hopen,hup⟩ := h.speaking hx
  obtain ⟨hb,hrem⟩ := h.ties.ends x hx
  have hconduct := h.ties.link.conduct x hx
  have hlisten : x.listening = true := by
    rcases hconduct.hearing with hl | hc
    · exact hl
    · rw [hup] at hc
      cases hc
  have hfits : frame.Fits := h.ties.link.plain frame (mem_done (List.mem_of_getElem? hlog))
  have hm : n.step near far (.back i c none now) =
      n.send (.datagram c far frame.encode now) := by
    simp only [Network.step,hlog,hx,hb,if_true]
    rfl
  have hreact : n.sender.react (.datagram c far frame.encode now) =
      (n.sender.onAcknowledge c x frame.fragment frame.window now,[]) := by
    simp only [Sender.react,Sender.onDatagram,hx,hlisten,hrem,Frame.receive_encode hfits,hk,
      Bool.not_true,Bool.false_or,ne_eq,not_true_eq_false,decide_false,Bool.false_eq_true,if_false]
  have hlog' : (n.send (.datagram c far frame.encode now)).log = n.log := by
    simp only [Network.send,Note.ofEvent,Note.ofCall,Note.ofPushes,Sender.Event.subject,hreact,
      List.map_nil,List.append_nil]
  have hsender : (n.send (.datagram c far frame.encode now)).sender =
      n.sender.onAcknowledge c x frame.fragment frame.window now := by
    show (n.sender.react _).1 = _
    rw [hreact]
  have hconns : ∀ t : Sender, t = n.sender.onAcknowledge c x frame.fragment frame.window now →
      t.held = n.sender.held ∧ t.conns.length = n.sender.conns.length ∧
      ∃ y, t.conns[c]? = some y ∧
        y.outbox = (x.outbox.acknowledge frame.fragment frame.window now).2 ∧
        y.closing = x.closing ∧ y.closed = x.closed := by
    rintro t rfl
    simp only [Sender.onAcknowledge]
    split
    · exact ⟨by simp,by simp [Sender.modify],_,Sender.conns_modify_self hx _,rfl,rfl,rfl⟩
    · exact ⟨by simp,by simp [Sender.modify],_,Sender.conns_modify_self hx _,rfl,rfl,rfl⟩
  obtain ⟨hset,hlen,y,hy,hout,hclosing,hclosed⟩ := hconns _ hsender
  have hkeeps := (hconduct.keeps he).acknowledge frame.fragment frame.window now
  rw [← hout] at hkeeps
  refine ⟨_,y,hm,?_,rfl,hlog',hset,hy,hout⟩
  refine h.send hm rfl hlen ?_ (by rw [pushed,hlog']; exact h.few)
    ⟨y,hy,hkeeps.established,by rw [hclosing,hopen],by rw [hclosed,hup]⟩
  exact h.patient.react h.ties.sender h.ties.outbox (.datagram c far frame.encode now)

theorem Fair.settle (t : Nat) (notes : List Note) :
    ∀ {n : Network} {i : Nat} {x : Connection}, Fair near far c shutting r₀ p n →
      n.sender.conns[c]? = some x → (∀ note ∈ notes, Plain near note) →
      (∀ (j : Nat) note, notes[j]? = some note → n.log[i + j]? = some note) →
      ∃ m y, Smooth near far c ⟨n,i,t⟩ ⟨m,i + notes.length,t⟩ ∧
        Fair near far c shutting r₀ p m ∧ m.receiver = n.receiver ∧ m.log = n.log ∧
        m.sender.held = n.sender.held ∧ m.sender.conns[c]? = some y ∧
        y.outbox.lastSent = x.outbox.lastSent ∧
        x.outbox.lastAcked.toInt ≤ y.outbox.lastAcked.toInt := by
  induction notes with
  | nil =>
    intro n i x h hx _ _
    exact ⟨n,x,.refl,h,rfl,rfl,rfl,hx,rfl,Int.le_refl _⟩
  | cons note notes ih =>
    intro n i x h hx hplain hlog
    have hfirst : n.log[i]? = some note := hlog 0 note rfl
    obtain ⟨deed,rfl,hdeed⟩ := hplain note List.mem_cons_self
    have hone : ∃ m y, Calm near far c ⟨n,i,t⟩ ⟨m,i + 1,t⟩ ∧
        Fair near far c shutting r₀ p m ∧ m.receiver = n.receiver ∧ m.log = n.log ∧
        m.sender.held = n.sender.held ∧ m.sender.conns[c]? = some y ∧
        y.outbox.lastSent = x.outbox.lastSent ∧
        x.outbox.lastAcked.toInt ≤ y.outbox.lastAcked.toInt := by
      by_cases hack : ∃ frame, deed = .sent near frame
      · obtain ⟨frame,rfl⟩ := hack
        obtain ⟨m,y,hm,hf,hr,hl,hs,hy,hout⟩ := h.heed hx hfirst (hdeed frame rfl) t
        have hkeeps := (h.ties.link.conduct x hx).keeps (h.speaking hx).1
        have hcalm : Calm near far c ⟨n,i,t⟩ ⟨_,i + 1,t⟩ := .back t (Nat.le_refl t) hfirst
        rw [hm] at hcalm
        refine ⟨m,y,hcalm,hf,hr,hl,hs,hy,?_,?_⟩
        · rw [hout,hkeeps.lastSent_acknowledge]
        · rw [hout]
          exact (hkeeps.acknowledge_bounds _ _ _).2
      · have hpass : ∀ frame, Note.registry deed ≠ .registry (.sent near frame) := by
          rintro frame hd
          exact hack ⟨frame,Note.registry.inj hd⟩
        exact ⟨n,x,.pass hfirst (fun _ hc => by cases hc) hpass,h,rfl,rfl,rfl,hx,rfl,Int.le_refl _⟩
    obtain ⟨m,y,hcalm,hf,hr,hl,hs,hy,hsent,hacked⟩ := hone
    have hrest : ∀ (j : Nat) v, notes[j]? = some v → m.log[i + 1 + j]? = some v := by
      intro j v hj
      rw [hl,show i + 1 + j = i + (j + 1) by omega]
      exact hlog (j + 1) v hj
    obtain ⟨m',y',hs',hf',hr',hl',hset',hy',hsent',hacked'⟩ :=
      ih hf hy (fun v hv => hplain v (List.mem_cons_of_mem _ hv)) hrest
    refine ⟨m',y',hcalm.once.trans ?_,hf',hr'.trans hr,hl'.trans hl,hset'.trans hs,hy',
      hsent'.trans hsent,Int.le_trans hacked hacked'⟩
    rw [List.length_cons,show i + (notes.length + 1) = i + 1 + notes.length by omega]
    exact hs'

end

end Network
end ReliableTransport
