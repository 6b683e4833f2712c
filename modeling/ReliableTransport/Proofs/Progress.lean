import ReliableTransport.Proofs.Calm

/-! No loss wedges a transfer. From wherever a network with faults has got to, two rounds without
them (`Network.Fair.round`) acknowledge all that was pushed: the first one sends the connection back
to what the record has taken, and the second one sends the rest (`Network.Fair.drain`). Then the
calls to send that wait go on, and round after round all of them are answered. -/
namespace ReliableTransport

open Connection (payloads lifeFrame)
open Outbox (numbered)

namespace Network

section

variable {near far : Address} {c : ConnRef} {shutting : Prop} {r₀ : Registry} {p : PeerId}
  {n : Network}

theorem foldl_advanced (pieces : List Bytes) (k : Nat) :
    ((numbered k pieces).map (·.1)).foldl advanced (Int32.ofNat (k + 1)) =
      Int32.ofNat (k + pieces.length + 1) := by
  induction pieces generalizing k with
  | nil => rfl
  | cons piece pieces ih =>
    have hstep : advanced (Int32.ofNat (k + 1)) (Int32.ofNat (k + 1)) =
        Int32.ofNat (k + 1 + 1) := by
      rw [advanced,if_pos rfl,Int32.ofNat_add (k + 1) 1]
      rfl
    show ((numbered (k + 1) pieces).map (·.1)).foldl advanced
      (advanced (Int32.ofNat (k + 1)) (Int32.ofNat (k + 1))) = _
    rw [hstep,ih,List.length_cons]
    congr 1
    omega

theorem minWindow_le {capacity : Nat} (h : Frame.maxPayload ≤ capacity) :
    Sender.minWindow ≤ Frame.windowOf capacity := by
  have hmin : Sender.minWindow.toInt = 1452 := by decide
  have hpay : Frame.maxPayload = 1452 := by decide
  rw [Int32.le_iff_toInt_le,hmin,Frame.windowOf]
  split
  · rename_i hlt
    rw [Signed.toInt_ofNat (Nat.le_of_lt_succ hlt)]
    omega
  · decide

theorem fragment_dataFrame (frames : List (Int32 × Bytes)) :
    (frames.map Sender.dataFrame).map (·.fragment) = frames.map (·.1) := by
  rw [List.map_map]
  rfl

/-- All answers arrive, the last one of which says what the record has taken. -/
theorem Fair.answers (h : Fair near far c shutting r₀ p n) (hr₀ : r₀.peers = []) {x : Connection}
    {y : Peer} (hx : n.sender.conns[c]? = some x) (hy : n.receiver.registry.peers[p]? = some y)
    {before notes : List Note} {window : Int32}
    (hlog : n.log = before ++ notes ++
      [.registry (.sent near (Receiver.reply .adat y.inbox.lastAccepted window))])
    (hplain : ∀ note ∈ notes, Plain near note) (t : Nat) :
    ∃ m x', Smooth near far c ⟨n,before.length,t⟩ ⟨m,m.log.length,t⟩ ∧
      Fair near far c shutting r₀ p m ∧ m.receiver = n.receiver ∧ m.log = n.log ∧
      m.sender.held = n.sender.held ∧ m.sender.conns[c]? = some x' ∧
      x'.outbox.lastAcked = y.inbox.lastAccepted ∧ x'.outbox.lastSent = x.outbox.lastSent ∧
      window ≤ x'.outbox.window := by
  have hat : ∀ (j : Nat) note, notes[j]? = some note → n.log[before.length + j]? = some note := by
    intro j note hj
    have hlt := (List.getElem?_eq_some_iff.mp hj).1
    rw [hlog,List.append_assoc,List.getElem?_append_right (Nat.le_add_right _ _),
      Nat.add_sub_cancel_left,List.getElem?_append_left hlt]
    exact hj
  obtain ⟨l,z,hs,hf,hr,hl,hh,hz,hsent,_⟩ := Fair.settle t notes h hx hplain hat
  have hlast : l.log[before.length + notes.length]? =
      some (.registry (.sent near (Receiver.reply .adat y.inbox.lastAccepted window))) := by
    rw [hl,hlog,← List.length_append]
    exact List.getElem?_concat_length
  obtain ⟨m,x',hm,hf',hr',hl',hh',hx',hout⟩ := hf.heed hz hlast rfl t
  -- the last answer counts: nothing beyond it is acknowledged yet, and all of it was sent
  have hy' : l.receiver.registry.peers[p]? = some y := by rw [hr,hy]
  obtain ⟨hkeeps,hle,hge⟩ := hf.numbers hr₀ hz hy'
  have hack := hkeeps.acknowledge_of_within window t hle hge
  have hwide := (Outbox.widen_eq z.outbox.window window).2
  have hstep : Calm near far c ⟨l,before.length + notes.length,t⟩ ⟨m,m.log.length,t⟩ := by
    have hlen : m.log.length = before.length + notes.length + 1 := by
      rw [hl',hl,hlog,List.length_append,List.length_append,List.length_singleton]
    rw [hlen,← hm]
    exact .back t (Nat.le_refl t) hlast
  refine ⟨m,x',hs.step hstep,hf',hr'.trans hr,hl'.trans hl,hh'.trans hh,hx',?_,?_,?_⟩
  · rw [hout]
    show (z.outbox.acknowledge y.inbox.lastAccepted window t).2.lastAcked = _
    rw [hack]
  · rw [hout,← hsent]
    show (z.outbox.acknowledge y.inbox.lastAccepted window t).2.lastSent = _
    rw [hack]
  · rw [hout]
    show window ≤ (z.outbox.acknowledge y.inbox.lastAccepted window t).2.window
    rw [hack]
    exact hwide

/-- The connection is woken when it is late, and all it sends arrives. The last answer says what the
record has taken, and that there is room for a whole payload. -/
theorem Fair.volley (h : Fair near far c shutting r₀ p n) (hr₀ : r₀.peers = []) {x : Connection}
    {y : Peer} (hx : n.sender.conns[c]? = some x)
    (hy : n.receiver.registry.peers[p]? = some y) (t : Nat) :
    ∃ m now z frames b before notes window,
      Smooth near far c ⟨n,n.log.length,t⟩ ⟨m,List.length before,now⟩ ∧
      Fair near far c shutting r₀ p m ∧ m.sender.held = n.sender.held ∧
      m.pushed c = n.pushed c ∧ m.sender.conns[c]? = some { x with outbox := b } ∧
      m.receiver.registry.peers[p]? = some z ∧ z.inbox.unread = [] ∧ b.lastSent = b.lastAcked ∧
      m.log = before ++ notes ++
        [.registry (.sent near (Receiver.reply .adat z.inbox.lastAccepted window))] ∧
      (∀ note ∈ notes, Plain near note) ∧ Sender.minWindow ≤ window ∧
      x.outbox.flush now Sender.minWindow n.sender.settings.resend.nanos = (frames,b) ∧
      z.inbox.next = (frames.map (·.1)).foldl advanced y.inbox.next := by
  obtain ⟨hkeeps,_⟩ := h.numbers hr₀ hx hy
  let now := t + (x.outbox.progress + n.sender.settings.resend.nanos + 1)
  obtain ⟨frames,b,reach,hflush,hrests,_⟩ :=
    hkeeps.flush now n.sender.settings.resend.nanos Sender.minWindow
  have hback : b.lastSent = b.lastAcked := hrests.rewound (by omega)
  obtain ⟨n₁,hm₁,hf₁,hr₁,hh₁,hx₁,hp₁,hl₁⟩ := h.wake hx now hflush
  have hwake : Calm near far c ⟨n,n.log.length,t⟩ ⟨n₁,n.log.length,now⟩ := by
    rw [← hm₁]
    exact .wake now (by omega) hx (by omega)
  have hat : ∀ (j : Nat) frame, (frames.map Sender.dataFrame ++ [lifeFrame])[j]? = some frame →
      n₁.log[n.log.length + j]? = some (.conn c (.sent frame)) := by
    intro j frame hj
    rw [hl₁,List.getElem?_append_right (Nat.le_add_right _ _),Nat.add_sub_cancel_left,
      List.getElem?_map,hj]
    rfl
  have hy₁ : n₁.receiver.registry.peers[p]? = some y := by rw [hr₁,hy]
  obtain ⟨n₂,y₂,hs₂,hf₂,ht₂,hy₂,hn₂⟩ := Fair.sweep hr₀ now (frames.map Sender.dataFrame) hf₁ hy₁
    (fun frame hm => by
      obtain ⟨e,_,rfl⟩ := List.mem_map.mp hm
      rfl)
    (fun j frame hj => hat j frame (by
      rw [List.getElem?_append_left (List.getElem?_eq_some_iff.mp hj).1]
      exact hj))
  have hlife : n₂.log[n.log.length + (frames.map Sender.dataFrame).length]? =
      some (.conn c (.sent lifeFrame)) := ht₂.log_at (hat _ _ List.getElem?_concat_length)
  obtain ⟨n₃,y₃,notes,hs₃,hf₃,ht₃,hy₃,hn₃,hu₃,hl₃⟩ := hf₂.beat hr₀ hy₂ hlife now
  have hplace : n.log.length + (frames.map Sender.dataFrame).length + 1 = n₁.log.length := by
    rw [hl₁]
    simp only [List.length_append,List.length_map,List.length_singleton]
    omega
  rw [hplace] at hs₃
  obtain ⟨more,hl₂,hplain₂⟩ := ht₂.log
  obtain ⟨notes₃,hl₃',hplain₃⟩ := ht₃.log
  have hplain : ∀ note ∈ more ++ notes, Plain near note := by
    intro note hm
    rcases List.mem_append.mp hm with hm | hm
    · exact hplain₂ note hm
    · rw [hl₃',List.append_assoc,List.append_cancel_left_eq] at hl₃
      exact hplain₃ note (by rw [hl₃]; exact List.mem_append_left _ hm)
  have hlast : y₃.inbox.lastAccepted = y₂.inbox.lastAccepted := by
    rw [Inbox.lastAccepted,hn₃,Inbox.lastAccepted]
  rw [hl₂,← hlast,List.append_assoc n₁.log] at hl₃
  have ht := ht₂.trans ht₃
  refine ⟨n₃,now,y₃,frames,b,n₁.log,more ++ notes,_,(hwake.once.trans hs₂).step hs₃,hf₃,?_,?_,?_,
    hy₃,hu₃,hback,hl₃,hplain,minWindow_le hf₂.room,hflush,?_⟩
  · rw [ht.sender,hh₁]
  · rw [ht.pushed,hp₁]
  · rw [ht.sender,hx₁]
  · rw [hn₃,hn₂,fragment_dataFrame]

/-- After one round what is acknowledged is what the record has taken, the window is wide enough, and
the connection is to go on from there. -/
theorem Fair.round (h : Fair near far c shutting r₀ p n) (hr₀ : r₀.peers = []) {x : Connection}
    {y : Peer} (hx : n.sender.conns[c]? = some x)
    (hy : n.receiver.registry.peers[p]? = some y) (t : Nat) :
    ∃ m now x' y' frames b, Smooth near far c ⟨n,n.log.length,t⟩ ⟨m,m.log.length,now⟩ ∧
      Fair near far c shutting r₀ p m ∧ m.sender.held = n.sender.held ∧
      m.pushed c = n.pushed c ∧ m.sender.conns[c]? = some x' ∧
      m.receiver.registry.peers[p]? = some y' ∧ y'.inbox.unread = [] ∧
      x'.outbox.lastAcked = y'.inbox.lastAccepted ∧
      x'.outbox.lastSent.toInt ≤ x'.outbox.lastAcked.toInt ∧
      Sender.minWindow ≤ x'.outbox.window ∧
      x.outbox.flush now Sender.minWindow n.sender.settings.resend.nanos = (frames,b) ∧
      y'.inbox.next = (frames.map (·.1)).foldl advanced y.inbox.next := by
  obtain ⟨l,now,z,frames,b,before,notes,window,hs,hf,hh,hp,hxl,hz,hu,hback,hlog,hplain,hwide,hflush,
    hnext⟩ := h.volley hr₀ hx hy t
  obtain ⟨m,x',hs',hf',hr',hl',hh',hx',hacked,hsent,hwindow⟩ := hf.answers hr₀ hxl hz hlog hplain now
  refine ⟨m,now,x',z,frames,b,hs.trans hs',hf',hh'.trans hh,?_,hx',by rw [hr',hz],hu,hacked,?_,
    Int32.le_trans hwide hwindow,hflush,hnext⟩
  · rw [← hp,pushed,pushed,hl']
  · obtain ⟨_,hle,_⟩ := hf.numbers hr₀ hxl hz
    rw [hsent,hacked]
    show b.lastSent.toInt ≤ _
    rw [hback]
    exact hle

/-- Everything pushed has been acknowledged, taken by the record and read from it. -/
structure Drained (c : ConnRef) (p : PeerId) (n : Network) : Prop where
  acked : ∃ x, n.sender.conns[c]? = some x ∧ x.outbox.slots = [] ∧
    x.outbox.lastAcked.toInt = (n.pushed c).length
  taken : n.taken p = n.pushed c
  given : n.given p = (n.pushed c).flatten

theorem Fair.drain (h : Fair near far c shutting r₀ p n) (hr₀ : r₀.peers = []) (t : Nat) :
    ∃ m now, Smooth near far c ⟨n,n.log.length,t⟩ ⟨m,m.log.length,now⟩ ∧
      Fair near far c shutting r₀ p m ∧ m.sender.held = n.sender.held ∧
      m.pushed c = n.pushed c ∧ Drained c p m := by
  obtain ⟨x,hx,_⟩ := h.speaks
  obtain ⟨y,hy,_⟩ := h.record
  obtain ⟨n₁,now₁,x₁,y₁,_,_,hs₁,hf₁,hh₁,hp₁,hx₁,hy₁,_,ha₁,hsent₁,hwin₁,_,_⟩ :=
    h.round hr₀ hx hy t
  obtain ⟨n₂,now₂,x₂,y₂,frames,b,hs₂,hf₂,hh₂,hp₂,hx₂,hy₂,hu₂,ha₂,_,_,hflush,hnext⟩ :=
    hf₁.round hr₀ hx₁ hy₁ now₁
  obtain ⟨hk₁,_⟩ := hf₁.numbers hr₀ hx₁ hy₁
  obtain ⟨hk₂,_⟩ := hf₂.numbers hr₀ hx₂ hy₂
  -- the second round sends all that the record has not taken yet
  have hcursor : x₁.outbox.cursor.toInt.toNat = x₁.outbox.lastAcked.toInt.toNat := by
    have hc := hk₁.cursor_eq
    omega
  obtain ⟨b',hflush',_⟩ := hk₁.flush_of_open now₂ n₁.sender.settings.resend.nanos hwin₁
  rw [hflush',hcursor] at hflush
  obtain ⟨rfl,_⟩ := Prod.mk.inj hflush
  have hfew := hf₁.few
  have hle := hk₁.acked_le_length
  have hpos := hk₁.acked
  have hstart : y₁.inbox.next = Int32.ofNat (x₁.outbox.lastAcked.toInt.toNat + 1) := by
    apply Int32.toInt_inj.mp
    obtain ⟨hn,_⟩ := hf₁.next_eq hr₀ hy₁
    unfold Signed.fragmentLimit at hfew
    rw [hn,← ha₁,Signed.toInt_ofNat (by unfold Signed.fragmentLimit; omega)]
    omega
  have hend : y₂.inbox.next = Int32.ofNat ((n₂.pushed c).length + 1) := by
    rw [hnext,hstart,foldl_advanced,List.length_drop,hp₂]
    congr 1
    omega
  have hlast : y₂.inbox.lastAccepted.toInt = (n₂.pushed c).length := by
    obtain ⟨hn,_⟩ := hf₂.next_eq hr₀ hy₂
    rw [hend,Signed.toInt_ofNat (by have hfew₂ := hf₂.few; omega)] at hn
    omega
  have hall : x₂.outbox.lastAcked.toInt = (n₂.pushed c).length := by rw [ha₂,hlast]
  have hnew := Link.all_new hr₀ p
  obtain ⟨k,hk,_,htaken,hgiven⟩ := hf₂.ties.taken_of_new hy₂ (hf₂.addr hy₂) hnew
  have hlen : k = (n₂.pushed c).length := by
    have hint : y₂.taken = (n₂.pushed c).length := hlast
    omega
  rw [hlen,List.take_length] at htaken hgiven
  rw [hu₂,List.append_nil] at hgiven
  refine ⟨n₂,now₂,hs₁.trans hs₂,hf₂,hh₂.trans hh₁,hp₂.trans hp₁,⟨x₂,hx₂,?_,hall⟩,htaken,hgiven⟩
  rw [hk₂.slots]
  exact List.drop_eq_nil_of_le (by omega)

def Silent (near : Address) (c : ConnRef) (note : Note) : Prop :=
  ∀ frame, note ≠ .conn c (.sent frame) ∧ note ≠ .registry (.sent near frame)

theorem smooth_pass (t : Nat) (notes : List Note) :
    ∀ (i : Nat), (∀ note ∈ notes, Silent near c note) →
      (∀ (j : Nat) note, notes[j]? = some note → n.log[i + j]? = some note) →
      Smooth near far c ⟨n,i,t⟩ ⟨n,i + notes.length,t⟩ := by
  induction notes with
  | nil => exact fun _ _ _ => .refl
  | cons note notes ih =>
    intro i hsilent hlog
    have hnote := hsilent note List.mem_cons_self
    have hfirst : n.log[i]? = some note := hlog 0 note rfl
    have hpass : Calm near far c ⟨n,i,t⟩ ⟨n,i + 1,t⟩ :=
      .pass hfirst (fun frame => (hnote frame).1) fun frame => (hnote frame).2
    have hrest := ih (i + 1) (fun v hv => hsilent v (List.mem_cons_of_mem _ hv)) fun j v hj => by
      rw [show i + 1 + j = i + (j + 1) by omega]
      exact hlog (j + 1) v hj
    rw [List.length_cons,show i + (notes.length + 1) = i + 1 + notes.length by omega]
    exact hpass.once.trans hrest

/-- The last piece that a call has pushed on a drained connection is acknowledged. -/
theorem Fair.acked (h : Fair near far c shutting r₀ p n) {x : Connection}
    (hx : n.sender.conns[c]? = some x) (hall : x.outbox.lastAcked.toInt = (n.pushed c).length)
    {k : CallId} {rest : List Bytes} {last : Int32}
    (hk : (k,.send c rest last) ∈ n.sender.held) : x.outbox.acked last = true := by
  obtain ⟨he,_⟩ := h.speaking hx
  have hkeeps : x.outbox.Keeps (n.pushed c) := (h.ties.link.conduct x hx).keeps he
  obtain ⟨_,_,_,hlast,_⟩ := h.pledged.waiting k rest last hk
  have hle : last.toInt ≤ (n.pushed c).length := hlast.2
  exact (hkeeps.acked_iff hlast.1).mpr (by omega)

theorem Fair.ready (h : Fair near far c shutting r₀ p n) (hd : Drained c p n) {k : CallId}
    {rest : List Bytes} {last : Int32} (hk : (k,.send c rest last) ∈ n.sender.held) :
    Waiting.ready? n.sender.waiting k = some (.send c rest last) := by
  refine h.patient.ready h.ties.sender hk rfl ?_
  rintro ⟨x,hx,_,hb⟩
  obtain ⟨x',hx',hslots,hall⟩ := hd.acked
  rw [hx] at hx'
  obtain rfl := Option.some.inj hx'
  split at hb
  · rw [h.acked hx hall hk] at hb
    cases hb
  · rw [Outbox.full,hslots] at hb
    exact absurd hb (by decide)

theorem resume_send (near : Address) {k : CallId} {rest : List Bytes} {last : Int32}
    {x : Connection}
    (hr : Waiting.ready? n.sender.waiting k = some (.send c rest last))
    (hx : n.sender.conns[c]? = some x) (hup : x.closed = false) :
    (n.sender.attempt (.send c rest last)).1 = Sender.tried x c rest last ∧
      (n.resume k).sender.conns[c]? =
        some { x with outbox := x.outbox.extend (rest.take x.outbox.room) } ∧
      (n.resume k).pushed c = n.pushed c ++ rest.take x.outbox.room ∧
      ∃ notes, (n.resume k).log = n.log ++ notes ∧ ∀ note ∈ notes, Silent near c note := by
  have hnot : ¬ (rest ≠ [] ∧ x.closed = true) := by
    rintro ⟨_,hc⟩
    rw [hup] at hc
    cases hc
  have htry := Sender.attempt_send last hx hnot
  refine ⟨by rw [htry],?_,?_,_,rfl,fun note hm => ?_⟩
  · show (n.sender.poll k).1.conns[c]? = _
    rw [Sender.poll_conns hr,htry]
    exact Sender.conns_modify_self hx _
  · have hadded : Sender.added k c c n.sender (n.sender.poll k).1 =
        (rest.take x.outbox.room).map (.pushed k) := by
      rw [Sender.added_congr k (Sender.poll_conns hr),htry,Sender.added,if_pos rfl,
        Sender.grown_hold hx]
    have hsent : Sender.said c (n.sender.poll k).2 = [] := by
      rw [Sender.poll_said hr,htry]
      rfl
    have hsubject : Sender.subject n.sender k = some c := by
      rw [Sender.subject,hr]
      rfl
    simp only [pushed,Network.resume,said_append,said_ofCall,hsubject,Sender.addedOn,hadded,hsent,
      List.append_nil,Connection.payloads_append,Connection.payloads_pushed]
  · rw [Note.ofCall,Sender.subject,hr,Sender.poll_finished hr,htry] at hm
    rcases List.mem_append.mp hm with hm | hm
    · obtain ⟨piece,_,rfl⟩ := List.mem_map.mp hm
      exact fun frame => ⟨by simp,by simp⟩
    · obtain ⟨o,ho,rfl⟩ := List.mem_map.mp hm
      obtain ⟨result,rfl⟩ : ∃ result, o = .finish k result := by
        unfold Sender.finished at ho
        split at ho
        · exact ⟨_,List.mem_singleton.mp ho⟩
        · cases ho
      exact fun frame => ⟨by simp [Note.ofOutput],by simp [Note.ofOutput]⟩

/-- On a drained connection a call to send is answered if there is room for all it has left, and all
it had pushed before is all there is; otherwise it has less left afterwards. -/
theorem Fair.tried_again (h : Fair near far c shutting r₀ p n) {x : Connection}
    (hx : n.sender.conns[c]? = some x) (hslots : x.outbox.slots = [])
    (hall : x.outbox.lastAcked.toInt = (n.pushed c).length) {k : CallId} {rest : List Bytes}
    {last : Int32} (hk : (k,.send c rest last) ∈ n.sender.held) :
    (rest.drop x.outbox.room = [] ∧ Sender.tried x c rest last = .answer .delivered) ∨
      ∃ last', (rest.drop x.outbox.room).length < rest.length ∧
        Sender.tried x c rest last = .wait (.send c (rest.drop x.outbox.room) last') := by
  obtain ⟨_,_,hup⟩ := h.speaking hx
  by_cases hleft : rest.drop x.outbox.room = []
  · by_cases hacked : x.outbox.acked (x.outbox.lastOf last (rest.take x.outbox.room)) = true
    · refine .inl ⟨hleft,?_⟩
      simp only [Sender.tried,hleft,hacked,ne_eq,not_true_eq_false,if_false,if_true]
    · have hrest : rest ≠ [] := by
        rintro rfl
        rw [List.take_nil,Outbox.lastOf_nil] at hacked
        exact hacked (h.acked hx hall hk)
      refine .inr ⟨x.outbox.lastOf last (rest.take x.outbox.room),?_,?_⟩
      · rw [hleft]
        exact List.length_pos_iff.mpr hrest
      · simp only [Sender.tried,hleft,hacked,hup,ne_eq,not_true_eq_false,if_false,
          Bool.false_eq_true]
  · refine .inr ⟨x.outbox.lastOf last (rest.take x.outbox.room),?_,?_⟩
    · have hpos := List.length_pos_iff.mpr hleft
      have hroom : 0 < x.outbox.room := by
        rw [Outbox.room,hslots]
        decide
      rw [List.length_drop] at hpos ⊢
      omega
    · simp only [Sender.tried,ne_eq,hleft,not_false_eq_true,if_true]

/-- A call to send that waits on a drained connection is answered or pushes on. -/
theorem Fair.again (h : Fair near far c shutting r₀ p n) (hd : Drained c p n) {k : CallId}
    {rest : List Bytes} {last : Int32} (hk : (k,.send c rest last) ∈ n.sender.held)
    (hfew : (n.pushed c).length + rest.length < Signed.fragmentLimit) :
    Fair near far c shutting r₀ p (n.resume k) ∧
      (∃ notes, (n.resume k).log = n.log ++ notes ∧ ∀ note ∈ notes, Silent near c note) ∧
      ∃ before after, n.sender.held = before ++ (k,.send c rest last) :: after ∧
        (((n.resume k).sender.held = before ++ after ∧ .settled k .delivered ∈ (n.resume k).log ∧
            ((n.resume k).pushed c).length = (n.pushed c).length + rest.length) ∨
          ∃ left last', left.length < rest.length ∧
            (n.resume k).sender.held = before ++ (k,.send c left last') :: after ∧
            ((n.resume k).pushed c).length + left.length =
              (n.pushed c).length + rest.length) := by
  have hr := h.ready hd hk
  obtain ⟨x,hx,hslots,hall⟩ := hd.acked
  obtain ⟨he,hopen,hup⟩ := h.speaking hx
  obtain ⟨htry,hget,hpushed,hsilent⟩ := resume_send near hr hx hup
  have hcount : ((n.resume k).pushed c).length + (rest.drop x.outbox.room).length =
      (n.pushed c).length + rest.length := by
    rw [hpushed,List.length_append,List.length_take,List.length_drop]
    omega
  have hfair : Fair near far c shutting r₀ p (n.resume k) := by
    have hstep : n.step near far (.resume k) = n.resume k := rfl
    refine h.send hstep rfl (Sender.poll_length _ _) (h.patient.poll k) ?_
      ⟨_,hget,he,hopen,hup⟩
    omega
  obtain ⟨before,after,hsplit,hbefore,hafter⟩ := Sender.held_split h.ties.sender hk
  refine ⟨hfair,hsilent,before,after,hsplit,?_⟩
  rcases h.tried_again hx hslots hall hk with ⟨hleft,ho⟩ | ⟨last',hlt,ho⟩
  · rw [hleft,List.length_nil,Nat.add_zero] at hcount
    refine .inl ⟨Sender.poll_answered hr (htry.trans ho) hsplit hbefore hafter,?_,hcount⟩
    have hout : Sender.Output.finish k .delivered ∈ (n.sender.poll k).2 := by
      rw [Sender.poll_finished hr,htry,ho]
      exact List.mem_append_right _ (List.mem_singleton_self _)
    exact List.mem_append_right _ (List.mem_append_right _ (List.mem_map_of_mem hout))
  · exact .inr ⟨_,last',hlt,Sender.poll_waits hr (htry.trans ho) hsplit hbefore hafter,hcount⟩

def pending (c : ConnRef) : Sender.Call → Nat
  | .send d rest _ => if d = c then rest.length else 0
  | _ => 0

/-- How many pieces the calls that wait have still to push on a connection. -/
def backlog (c : ConnRef) : List (CallId × Sender.Call) → Nat
  | [] => 0
  | e :: held => pending c e.2 + backlog c held

theorem backlog_split (c : ConnRef) (before after : List (CallId × Sender.Call)) (k : CallId)
    (rest : List Bytes) (last : Int32) :
    backlog c (before ++ (k,.send c rest last) :: after) =
      backlog c (before ++ after) + rest.length := by
  induction before with
  | nil =>
    simp only [List.nil_append,backlog,pending,if_true]
    exact Nat.add_comm _ _
  | cons e before ih =>
    simp only [List.cons_append,backlog,ih]
    exact (Nat.add_assoc _ _ _).symm

/-- On a drained connection one of the calls that wait tries again, which leaves less to do; of the
others none is lost. -/
theorem Fair.advance (h : Fair near far c shutting r₀ p n) (hd : Drained c p n)
    (hex : ∃ k rest last, (k,.send c rest last) ∈ n.sender.held)
    (hfew : (n.pushed c).length + backlog c n.sender.held < Signed.fragmentLimit) (t : Nat) :
    ∃ m, Smooth near far c ⟨n,n.log.length,t⟩ ⟨m,m.log.length,t⟩ ∧
      Fair near far c shutting r₀ p m ∧
      backlog c m.sender.held + m.sender.held.length <
        backlog c n.sender.held + n.sender.held.length ∧
      (m.pushed c).length + backlog c m.sender.held < Signed.fragmentLimit ∧
      ∀ k rest last, (k,.send c rest last) ∈ n.sender.held →
        .settled k .delivered ∈ m.log ∨
          ∃ left last', (k,.send c left last') ∈ m.sender.held := by
  obtain ⟨k,rest,last,hk⟩ := hex
  have hfew' : (n.pushed c).length + rest.length < Signed.fragmentLimit := by
    obtain ⟨before,after,he⟩ := List.append_of_mem hk
    rw [he,backlog_split] at hfew
    omega
  obtain ⟨hf,⟨notes,hlog,hsilent⟩,before,after,hsplit,hcases⟩ := h.again hd hk hfew'
  have hs : Smooth near far c ⟨n,n.log.length,t⟩ ⟨n.resume k,(n.resume k).log.length,t⟩ := by
    have hresume : Calm near far c ⟨n,n.log.length,t⟩ ⟨n.resume k,n.log.length,t⟩ := .resume k
    rw [hlog,List.length_append]
    refine hresume.once.trans (smooth_pass t notes n.log.length hsilent fun j note hj => ?_)
    rw [hlog,List.getElem?_append_right (Nat.le_add_right _ _),Nat.add_sub_cancel_left]
    exact hj
  have hlength : n.sender.held.length = before.length + (after.length + 1) := by
    rw [hsplit,List.length_append,List.length_cons]
  have hbacklog : backlog c n.sender.held = backlog c (before ++ after) + rest.length := by
    rw [hsplit,backlog_split]
  rcases hcases with ⟨hheld,hsettled,hcount⟩ | ⟨left,last',hlt,hheld,hcount⟩
  · refine ⟨n.resume k,hs,hf,?_,?_,fun j rest' last' hj => ?_⟩
    · rw [hheld,List.length_append]
      omega
    · rw [hheld]
      omega
    · rw [hsplit,List.mem_append,List.mem_cons] at hj
      rw [hheld]
      rcases hj with hj | hj | hj
      · exact .inr ⟨rest',last',List.mem_append_left _ hj⟩
      · rw [(Prod.mk.inj hj).1]
        exact .inl hsettled
      · exact .inr ⟨rest',last',List.mem_append_right _ hj⟩
  · refine ⟨n.resume k,hs,hf,?_,?_,fun j rest' last'' hj => ?_⟩
    · rw [hheld,backlog_split,List.length_append,List.length_cons]
      omega
    · rw [hheld,backlog_split]
      omega
    · rw [hsplit,List.mem_append,List.mem_cons] at hj
      rw [hheld]
      rcases hj with hj | hj | hj
      · exact .inr ⟨rest',last'',List.mem_append_left _ hj⟩
      · rw [(Prod.mk.inj hj).1]
        exact .inr ⟨left,last',List.mem_append_right _ List.mem_cons_self⟩
      · exact .inr ⟨rest',last'',List.mem_append_right _ (List.mem_cons_of_mem _ hj)⟩

/-- Round after round all calls to send are answered. What is left to do is counted by the pieces
that are still to be pushed and the calls that wait. -/
theorem Fair.finish (hr₀ : r₀.peers = []) (todo : Nat) :
    ∀ {n : Network} (t : Nat), Fair near far c shutting r₀ p n →
      backlog c n.sender.held + n.sender.held.length = todo →
      (n.pushed c).length + backlog c n.sender.held < Signed.fragmentLimit →
      ∃ m now, Smooth near far c ⟨n,n.log.length,t⟩ ⟨m,m.log.length,now⟩ ∧
        Fair near far c shutting r₀ p m ∧ Drained c p m ∧
        ∀ k rest last, (k,.send c rest last) ∈ n.sender.held → .settled k .delivered ∈ m.log := by
  induction todo using Nat.strongRecOn with
  | ind todo ih =>
    intro n t h htodo hfew
    obtain ⟨m₁,t₁,hs₁,hf₁,hh₁,hp₁,hd₁⟩ := h.drain hr₀ t
    rw [← hh₁] at htodo hfew ⊢
    rw [← hp₁] at hfew
    by_cases hex : ∃ k rest last, (k,.send c rest last) ∈ m₁.sender.held
    · obtain ⟨m₂,hs₂,hf₂,hless,hfew₂,hkept⟩ := hf₁.advance hd₁ hex hfew t₁
      obtain ⟨m,now,hs₃,hf₃,hd₃,hall⟩ := ih _ (by omega) t₁ hf₂ rfl hfew₂
      refine ⟨m,now,(hs₁.trans hs₂).trans hs₃,hf₃,hd₃,fun k rest last hk => ?_⟩
      rcases hkept k rest last hk with hsettled | ⟨left,last',hleft⟩
      · exact hs₃.reaches.grows.log.subset hsettled
      · exact hall k left last' hleft
    · exact ⟨m₁,t₁,hs₁,hf₁,hd₁,fun k rest last hk => absurd ⟨k,rest,last,hk⟩ hex⟩

/-- What is known of a network with both sides open, whatever has happened on the way there. -/
theorem Open.fair {ss : Sender.Settings} {rs : Receiver.Settings}
    (hr : Reaches near far (start ss rs) n) (hl : Lone near far c n)
    (hfew : (n.pushed c).length < Signed.fragmentLimit) (ho : Open near c p n) :
    Fair near far c (n.receiver.closing = true) (.empty rs.retiredCapacity) p n := by
  obtain ⟨hties,hpledged⟩ := hl.ties hr hfew
  have hbegin : Ties near far c (n.receiver.closing = true) (.empty rs.retiredCapacity)
      (start ss rs) := Ties.begin (sound_start ss rs) rfl rfl (vacant_start ss near)
  have hnone : (start ss rs).sender.Patient c := fun w hw => by cases hw
  exact ⟨ho,hties,hpledged,patient_reach hr hbegin hnone (hl.sole ss rs hfew),hfew⟩

/-- No loss wedges a transfer. Whatever the network has done so far, as long as both sides are open
some steps without faults drain the connection: then all that was pushed is acknowledged, taken and
read, and every call to send that waits can go on. If the fragment numbers do not run out, some more
such steps answer all these calls that their data was delivered. -/
theorem lone_progress {ss : Sender.Settings} {rs : Receiver.Settings}
    (hr : Reaches near far (start ss rs) n) (hl : Lone near far c n)
    (hfew : (n.pushed c).length < Signed.fragmentLimit) (ho : Open near c p n) (t : Nat) :
    (∃ m now, Smooth near far c ⟨n,n.log.length,t⟩ ⟨m,m.log.length,now⟩ ∧
      m.pushed c = n.pushed c ∧ Drained c p m ∧
      ∀ k rest last, (k,.send c rest last) ∈ n.sender.held →
        Waiting.ready? m.sender.waiting k = some (.send c rest last)) ∧
    ((n.pushed c).length + backlog c n.sender.held < Signed.fragmentLimit →
      ∃ m now, Smooth near far c ⟨n,n.log.length,t⟩ ⟨m,m.log.length,now⟩ ∧ Drained c p m ∧
        ∀ k rest last, (k,.send c rest last) ∈ n.sender.held →
          .settled k .delivered ∈ m.log) := by
  have hf := ho.fair hr hl hfew
  constructor
  · obtain ⟨m,now,hs,hf',hh,hp,hd⟩ := hf.drain rfl t
    refine ⟨m,now,hs,hp,hd,fun k rest last hk => ?_⟩
    rw [← hh] at hk
    exact hf'.ready hd hk
  · intro hroom
    obtain ⟨m,now,hs,_,hd,hall⟩ := Fair.finish rfl _ t hf rfl hroom
    exact ⟨m,now,hs,hd,hall⟩

end

def afterLoss : Network := usual.run here there (handshake ++
  [.sender (.send 1 [97]),.sender (.wake 0 2)])

theorem open_afterLoss : Open here 0 0 afterLoss where
  speaks := ⟨_,rfl,by decide +kernel,by decide +kernel,by decide +kernel⟩
  hears := by decide +kernel
  record := ⟨_,rfl,by decide +kernel⟩
  sole := by
    intro q y hy _
    have hlt := (List.getElem?_eq_some_iff.mp hy).1
    have hlen : afterLoss.receiver.registry.peers.length = 1 := by decide +kernel
    rw [hlen] at hlt
    exact Nat.lt_one_iff.mp hlt
  listens := by decide +kernel
  room := by decide +kernel

theorem lone_progress_after_loss :
    Lone here there 0 afterLoss ∧ (afterLoss.pushed 0).length < Signed.fragmentLimit ∧
      Open here 0 0 afterLoss ∧ (1,.send 0 [] 1) ∈ afterLoss.sender.held ∧
      ∃ m now, Smooth here there 0 ⟨afterLoss,afterLoss.log.length,2⟩ ⟨m,m.log.length,now⟩ ∧
        Drained 0 0 m ∧ .settled 1 .delivered ∈ m.log := by
  have hl : Lone here there 0 afterLoss := by decide +kernel
  have hfew : (afterLoss.pushed 0).length < Signed.fragmentLimit := by decide +kernel
  have hroom : (afterLoss.pushed 0).length + backlog 0 afterLoss.sender.held <
      Signed.fragmentLimit := by decide +kernel
  have hheld : (1,.send 0 [] 1) ∈ afterLoss.sender.held := by decide +kernel
  refine ⟨hl,hfew,open_afterLoss,hheld,?_⟩
  have hreach := reaches_run here there usual (handshake ++
    [.sender (.send 1 [97]),.sender (.wake 0 2)])
  obtain ⟨m,now,hs,hd,hall⟩ := (lone_progress hreach hl hfew open_afterLoss 2).2 hroom
  exact ⟨m,now,hs,hd,hall 1 [] 1 hheld⟩

end Network
end ReliableTransport
