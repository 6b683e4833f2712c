import ReliableTransport.Proofs.Delivery
import ReliableTransport.Proofs.Readers

/-! What a connection that takes its leave has delivered. It leaves only after all that was pushed is
acknowledged, and nothing that is pushed later goes out; so the only record of its address has taken
just what was pushed before (`Network.Ties.taken_of_left`). Whoever reads that record to its end is
given all of it (`Network.Ties.given_of_ended`), and always gets to the end (`Network.Torn.drain`). -/
namespace ReliableTransport

open Connection (payloads leaveFrame)
open Registry (takings handings)

namespace Network

section

variable {near far : Address} {c : ConnRef} {shutting : Prop} {r₀ : Registry} {p : PeerId}
  {m : Network}

@[simp] theorem said_cons_self (c : ConnRef) (deed : Connection.Deed) (log : List Note) :
    said c (.conn c deed :: log) = deed :: said c log := by
  simp [said]

/-- The only record of an address has taken what was pushed before the connection took its leave,
and nothing else. -/
theorem Ties.taken_of_left (h : Ties near far c shutting r₀ m) (hr₀ : r₀.peers = [])
    (honly : m.Only near p) {before after : List Note}
    (hlog : m.log = before ++ .conn c (.sent leaveFrame) :: after) :
    (∃ y, m.receiver.registry.peers[p]? = some y ∧ y.addr = near) ∧
      m.taken p = payloads (said c before) := by
  have hsaid : said c m.log = said c before ++ .sent leaveFrame :: said c after := by
    rw [hlog,said_append,said_cons_self]
  have hpushed : m.pushed c = payloads (said c before) ++ payloads (said c after) := by
    rw [pushed,hsaid,Connection.payloads_append]
    rfl
  cases hx : m.sender.conns[c]? with
  | none =>
    have hnone : said c m.log = [] := h.link.unsaid hx
    rw [hsaid] at hnone
    simp at hnone
  | some x =>
    obtain ⟨_,hacked,hhighest⟩ := (h.link.conduct x hx).left _ _ hsaid
    obtain ⟨q,y,hy,ha,k,hk,htaken⟩ := h.point_taken hr₀ hx (by omega)
    obtain rfl := honly q y hy ha
    have hnew := Link.all_new hr₀ q
    obtain ⟨j,hj,_,htaken',_⟩ := h.taken_of_new hy ha hnew
    have hreach : (m.link c).reach = x.outbox.highestSent.toInt := by
      simp only [Link.reach,Network.link,hx]
    have hle := h.taken_le hy ha hnew
    have hlen := congrArg List.length (htaken.symm.trans htaken')
    rw [List.length_take,List.length_take,hpushed,List.length_append] at hlen
    have hall : j = (payloads (said c before)).length := by omega
    refine ⟨⟨y,hy,ha⟩,?_⟩
    rw [htaken',hpushed,hall,List.take_left]

/-- By the time a reader is told that there is no more, all has been given that was ever taken. -/
theorem Ties.given_of_ended (h : Ties near far c shutting r₀ m) (hr₀ : r₀.peers = [])
    (hshut : ¬ shutting) (honly : m.Only near p) {early late : List Note}
    (hlog : m.log = early ++ .registry (.ended near) :: late) :
    (handings p (done early)).flatten = (m.taken p).flatten := by
  have hdone : done m.log = done early ++ .ended near :: done late := by
    rw [hlog,done_append]
    rfl
  obtain ⟨q,y,hy,ha,_,hgiven⟩ := h.link.ended _ _ hdone hshut
  obtain rfl := honly q y hy ha
  exact hgiven (Link.all_new hr₀ q)

/-- The record `p` is torn down with `left` still to be read, and the mark of its address is still
there. -/
structure Torn (near : Address) (p : PeerId) (left : Bytes) (n : Network) : Prop where
  listens : n.receiver.closing = false
  record : ∃ y, n.receiver.registry.peers[p]? = some y ∧ y.closed = true ∧ y.inbox.unread = left
  readable : n.receiver.registry.readable near = .live p ∨
    n.receiver.registry.readable near = .closed

/-- A record that is torn down can be read as long as its address is known. -/
theorem Only.torn (h : m.Only near p) (hs : m.receiver.Sound) (hc : m.receiver.closing = false)
    {y : Peer} (hy : m.receiver.registry.peers[p]? = some y) (hcl : y.closed = true)
    (hk : m.receiver.registry.readable near ≠ .unknown) : Torn near p y.inbox.unread m := by
  refine ⟨hc,⟨y,hy,hcl,rfl⟩,?_⟩
  cases hr : m.receiver.registry.readable near with
  | unknown => exact absurd hr hk
  | closed => exact .inr rfl
  | live q =>
    have hq : ∃ z, m.receiver.registry.peers[q]? = some z ∧ z.addr = near := by
      unfold Registry.readable at hr
      split at hr
      · rename_i hconn
        cases hr
        obtain ⟨z,hz,ha,_⟩ := hs.registry.connected near q hconn
        exact ⟨z,hz,ha⟩
      · split at hr
        · rename_i hret
          cases hr
          obtain ⟨z,hz,ha,_⟩ := hs.registry.unread near q hret
          exact ⟨z,hz,ha⟩
        · cases hr
        · cases hr
    obtain ⟨z,hz,ha⟩ := hq
    rw [h q z hz ha]
    exact .inl rfl

/-- A read of a record that is torn down is answered at once: with the next bytes if any are left,
else with the end. -/
theorem Torn.read {left : Bytes} (h : Torn near p left m) {room : Nat} (hr : 0 < room) :
    .registry (.ended near) ∈ (m.receive (.read near room)).log ∨
      (left ≠ [] ∧ Torn near p (left.drop room) (m.receive (.read near room))) := by
  obtain ⟨y,hy,hcl,hu⟩ := h.record
  have hne : room ≠ 0 := Nat.ne_of_gt hr
  have hin : ∀ deed, deed ∈ (Receiver.Event.read near room).deeds m.receiver
      (m.receiver.react (.read near room)).1 (m.receiver.react (.read near room)).2 →
      .registry deed ∈ (m.receive (.read near room)).log := fun deed hd =>
    List.mem_append_right _ (List.mem_map_of_mem hd)
  rcases h.readable with hread | hread
  · have hreact : m.receiver.react (.read near room) = m.receiver.enter (.read p room) := by
      simp only [Receiver.react,h.listens,hread,Bool.false_eq_true,if_false,hne]
    have htry := Receiver.attempt_read hy hr
    by_cases hleft : left = []
    · have hend : (m.receiver.attempt (.read p room)).1 = .answer (.bytes []) := by
        rw [Receiver.attempt_closed hy hcl hr,hu,hleft,List.take_nil]
      have hsent : (m.receiver.attempt (.read p room)).2.1 = [] := by
        rw [htry,hu,hleft,if_neg (by simp),if_pos hcl]
      refine .inl (hin _ ?_)
      rw [Receiver.Event.deeds,if_neg hne,hreact,Receiver.enter_finished,hend,hsent]
      exact List.mem_singleton_self _
    · refine .inr ⟨hleft,?_⟩
      rw [hu,if_pos hleft] at htry
      have hreg : (m.receive (.read near room)).receiver.registry =
          m.receiver.registry.modify p fun peer =>
            { peer with inbox := (y.inbox.read room).2 } := by
        show (m.receiver.react _).1.registry = _
        rw [hreact,Receiver.enter_registry,htry]
        rfl
      refine ⟨(Receiver.react_alike m.receiver (by simp)).2.trans h.listens,?_,.inl ?_⟩
      · rw [hreg]
        refine ⟨_,Registry.peers_modify_self hy,hcl,?_⟩
        show y.inbox.unread.drop room = _
        rw [hu]
      · rw [hreg]
        exact hread
  · refine .inl (hin _ ?_)
    have hreact : m.receiver.react (.read near room) = m.receiver.answer [] (.bytes []) := by
      simp only [Receiver.react,h.listens,hread,Bool.false_eq_true,if_false]
    rw [Receiver.Event.deeds,if_neg hne,hreact]
    exact List.mem_singleton_self _

/-- Reads of any sizes get to the end, of which there are more than bytes left. -/
theorem Torn.drain (rooms : List Nat) :
    ∀ {m : Network} {left : Bytes}, Torn near p left m → (∀ room ∈ rooms, 0 < room) →
      left.length < rooms.length →
      .registry (.ended near) ∈
        (m.run near far (rooms.map fun room => .receiver (.read near room))).log := by
  induction rooms with
  | nil => exact fun _ _ hlt => absurd hlt (Nat.not_lt_zero _)
  | cons room rooms ih =>
    intro m left h hpos hlt
    have hroom : 0 < room := hpos room List.mem_cons_self
    have hrun : m.run near far ((room :: rooms).map fun room => .receiver (.read near room)) =
        (m.receive (.read near room)).run near far
          (rooms.map fun room => .receiver (.read near room)) := by
      have hallow : Receiver.Allows near (.read near room) := trivial
      simp only [Network.run,List.map_cons,List.foldl_cons,Network.step,hallow,if_true]
    rw [hrun]
    rcases h.read hroom with hended | ⟨hleft,htorn⟩
    · exact (reaches_run near far _ _).grows.log.subset hended
    · refine ih htorn (fun room hm => hpos room (List.mem_cons_of_mem _ hm)) ?_
      have hsome := List.length_pos_iff.mpr hleft
      rw [List.length_drop]
      rw [List.length_cons] at hlt
      omega

theorem alert_reach {ss : Sender.Settings} {rs : Receiver.Settings}
    (h : Reaches near far (start ss rs) m) : m.receiver.Alert := by
  induction h with
  | refl => exact Receiver.alert_start rs
  | @step l hl move ih =>
    have hsound := hl.sound (sound_start ss rs)
    have hm := moved near far l move
    generalize l.step near far move = n at hm ⊢
    cases hm with
    | same => exact ih
    | send e => exact ih
    | resume k => exact ih
    | receive e => exact ih.react e
    | recover k => exact ih.poll hsound.2 k
    | restart settings => exact ih

/-- A connection that takes its leave has delivered all that was pushed before. As long as the
receiver is open, the only record of its address has taken just that, and so much has been given by
the time a reader is told that there is no more. Once the record is torn down, for whatever reason,
reads that wait for it are answered as soon as they try again, and unless the mark of the address is
gone reads of any sizes get to the end. -/
theorem lone_farewell {ss : Sender.Settings} {rs : Receiver.Settings}
    (hr : Reaches near far (start ss rs) m) (hl : Lone near far c m)
    (hfew : (m.pushed c).length < Signed.fragmentLimit) (hopen : m.receiver.closing = false)
    (honly : m.Only near p) {before after : List Note}
    (hleft : m.log = before ++ .conn c (.sent leaveFrame) :: after) :
    (∃ y, m.receiver.registry.peers[p]? = some y ∧ y.addr = near) ∧
    m.taken p = payloads (said c before) ∧
    (∀ early late, m.log = early ++ .registry (.ended near) :: late →
      (handings p (done early)).flatten = (payloads (said c before)).flatten) ∧
    ∀ y, m.receiver.registry.peers[p]? = some y → y.closed = true →
      (∀ w ∈ m.receiver.waiting, ∀ room, w.call = .read p room → w.woken = true ∧
        (m.receiver.attempt w.call).1 = .answer (.bytes (y.inbox.unread.take room))) ∧
      (m.receiver.registry.readable near ≠ .unknown →
        ∀ rooms : List Nat, (∀ room ∈ rooms, 0 < room) → y.inbox.unread.length < rooms.length →
          .registry (.ended near) ∈
            (m.run near far (rooms.map fun room => .receiver (.read near room))).log) := by
  obtain ⟨hties,_⟩ := hl.ties hr hfew
  have hshut : ¬ m.receiver.closing = true := by
    rw [hopen]
    exact Bool.false_ne_true
  obtain ⟨hrecord,htaken⟩ := hties.taken_of_left rfl honly hleft
  refine ⟨hrecord,htaken,fun early late hlog => ?_,fun y hy hcl => ⟨?_,?_⟩⟩
  · rw [hties.given_of_ended rfl hshut honly hlog,htaken]
  · intro w hw room hcall
    refine ⟨(alert_reach hr).woken hw hcall hy hcl,?_⟩
    rw [hcall]
    exact Receiver.attempt_closed hy hcl (hties.receiver.room w hw p room hcall)
  · intro hknown rooms hpos hlt
    exact (honly.torn hties.receiver hopen hy hcl hknown).drain rooms hpos hlt

end

/-- A byte is sent and acknowledged, the connection takes its leave, and the receiver tears it
down. -/
def afterLeave : Network := usual.run here there (handshake ++
  [.sender (.send 1 [97]),.sender (.wake 0 2),.forth 6 none,.back 9 0 none 3,.resume 1,
    .sender (.disconnect 1),.forth 11 none,.receiver (.tick 0)])

theorem lone_farewell_of_byte :
    Lone here there 0 afterLeave ∧ (afterLeave.pushed 0).length < Signed.fragmentLimit ∧
      afterLeave.receiver.closing = false ∧ afterLeave.Only here 0 ∧
      (∃ before after, afterLeave.log = before ++ .conn 0 (.sent leaveFrame) :: after ∧
        payloads (said 0 before) = [[97]]) ∧
      afterLeave.taken 0 = [[97]] ∧
      .registry (.ended here) ∈ (afterLeave.run here there
        [.receiver (.read here 1),.receiver (.read here 2)]).log := by
  have hreach : Reaches here there usual afterLeave := reaches_run here there usual _
  have hl : Lone here there 0 afterLeave := by decide +kernel
  have hfew : (afterLeave.pushed 0).length < Signed.fragmentLimit := by decide +kernel
  have hopen : afterLeave.receiver.closing = false := by decide +kernel
  have honly : afterLeave.Only here 0 := by
    intro q y hy _
    have hlt := (List.getElem?_eq_some_iff.mp hy).1
    have hlen : afterLeave.receiver.registry.peers.length = 1 := by decide +kernel
    rw [hlen] at hlt
    exact Nat.lt_one_iff.mp hlt
  have hleft : afterLeave.log = afterLeave.log.take 11 ++
      .conn 0 (.sent leaveFrame) :: afterLeave.log.drop 12 := by decide +kernel
  have hpushed : payloads (said 0 (afterLeave.log.take 11)) = [[97]] := by decide +kernel
  obtain ⟨y,hy,hcl,hu⟩ : ∃ y, afterLeave.receiver.registry.peers[0]? = some y ∧
      y.closed = true ∧ y.inbox.unread.length = 1 :=
    ⟨_,rfl,by decide +kernel,by decide +kernel⟩
  have hknown : afterLeave.receiver.registry.readable here ≠ .unknown := by decide +kernel
  obtain ⟨_,htaken,_,hend⟩ := lone_farewell hreach hl hfew hopen honly hleft
  refine ⟨hl,hfew,hopen,honly,⟨_,_,hleft,hpushed⟩,htaken.trans hpushed,?_⟩
  exact (hend y hy hcl).2 hknown [1,2] (by decide) (by rw [hu]; decide)

end Network
end ReliableTransport
