import ReliableTransport.Proofs.Receptions

/-! Why a read waits. A read that nobody has woken finds its record open and all of it read
(`Alert.react`, `Alert.poll`), so that none sleeps through new bytes or through the end. Once a
record is torn down every read of it is answered at once (`attempt_closed`). -/
namespace ReliableTransport

def Registry.Dry (p : PeerId) (r : Registry) : Prop :=
  ∃ x, r.peers[p]? = some x ∧ x.inbox.unread = [] ∧ x.closed = false

namespace Registry

variable {r s : Registry} {p : PeerId}

theorem Dry.of_peers (h : r.Dry p) (hs : s.peers = r.peers) : s.Dry p := by
  obtain ⟨x,hx,hi⟩ := h
  exact ⟨x,by rw [hs,hx],hi⟩

/-- A change of one record that puts nothing into it and leaves it open. -/
theorem Dry.modify (h : r.Dry p) (q : PeerId) {f : Peer → Peer}
    (hf : ∀ x, r.peers[q]? = some x → x.inbox.unread = [] →
      (f x).inbox.unread = [] ∧ (f x).closed = x.closed) : (r.modify q f).Dry p := by
  obtain ⟨x,hx,hu,hc⟩ := h
  by_cases hq : q = p
  · subst hq
    obtain ⟨hu',hc'⟩ := hf x hx hu
    exact ⟨f x,peers_modify_self hx,hu',by rw [hc',hc]⟩
  · exact ⟨x,by rw [peers_modify_ne f hq,hx],hu,hc⟩

theorem Dry.modify_ne (h : r.Dry p) {q : PeerId} (hq : p ≠ q) (f : Peer → Peer) :
    (r.modify q f).Dry p := by
  obtain ⟨x,hx,hi⟩ := h
  exact ⟨x,by rw [peers_modify_ne f hq.symm,hx],hi⟩

theorem Dry.forget (h : r.Dry p) (q : PeerId) : (r.forgetDrained q).Dry p :=
  h.of_peers (peers_forgetDrained r q)

end Registry

namespace Receiver

open Registry (Dry)

/-- Every read that nobody has woken waits for a record that has nothing for it. -/
def Alert (r : Receiver) : Prop :=
  ∀ w ∈ r.waiting, ∀ p room, w.call = .read p room → w.woken = false → r.registry.Dry p

section

variable {r t : Receiver} {p : PeerId}

theorem alert_start (settings : Settings) : (start settings).Alert := fun w hw => by cases hw

/-- Whoever is not woken was there before, and its record is as dry as it was. -/
theorem Alert.of (h : r.Alert) (ht : ∀ w ∈ t.waiting, ∀ p room, w.call = .read p room →
    w.woken = false → w ∈ r.waiting ∧ (r.registry.Dry p → t.registry.Dry p)) : t.Alert := by
  intro w hw p room hc hn
  obtain ⟨hm,hi⟩ := ht w hw p room hc hn
  exact hi (h w hm p room hc hn)

theorem Alert.same (h : r.Alert) (hw : t.waiting = r.waiting)
    (ht : ∀ p, r.registry.Dry p → t.registry.Dry p) : t.Alert := by
  refine h.of fun w hm p room hc hn => ⟨?_,ht p⟩
  rw [← hw]
  exact hm

theorem mem_of_wake {ws : List (Waiting Call)} {concerns : Call → Bool} {w : Waiting Call}
    (h : w ∈ Waiting.wake ws concerns) (hn : w.woken = false) :
    w ∈ ws ∧ concerns w.call = false := by
  obtain ⟨v,hv,rfl⟩ := List.mem_map.mp h
  obtain ⟨hvn,hcn⟩ := Bool.or_eq_false_iff.mp hn
  refine ⟨?_,hcn⟩
  simp only [hvn,hcn,Bool.or_false]
  have he : ({ v with woken := false } : Waiting Call) = v := by rw [← hvn]
  rw [he]
  exact hv

theorem Alert.wakeAccepts (h : r.Alert) : r.wakeAccepts.Alert := by
  refine h.of fun w hw p room hc hn => ?_
  rw [waiting_wakeAccepts] at hw
  exact ⟨(mem_of_wake hw hn).1,fun hi => hi⟩

/-- Whoever reads from a record is woken, so that anything may have happened to it. -/
theorem Alert.rouse (h : r.Alert) (q : PeerId) (hw : t.waiting = r.waiting)
    (ht : ∀ p, p ≠ q → r.registry.Dry p → t.registry.Dry p) : (t.wakeReads q).Alert := by
  refine h.of fun w hm p room hc hn => ?_
  rw [waiting_wakeReads,hw] at hm
  obtain ⟨hold,hne⟩ := mem_of_wake hm hn
  rw [hc,decide_eq_false_iff_not] at hne
  exact ⟨hold,ht p hne⟩

theorem dry_acceptNext {a : Address} {frame : Frame} (h : r.acceptNext = some (a,frame,t))
    (hi : r.registry.Dry p) : t.registry.Dry p := by
  obtain ⟨q,s,x,ha,_,_,_,rfl⟩ := acceptNext_eq_some h
  obtain ⟨b,rest,_,rfl⟩ := Registry.accept_eq_some_iff.mp ha
  have hreset : (r.registry.modify q fun peer =>
      { peer with silence := peer.silence.reset }).Dry p :=
    hi.modify q fun _ _ hu => ⟨hu,rfl⟩
  have hplaced : ({ r.registry.modify q fun peer => { peer with silence := peer.silence.reset } with
      pending := rest
      connected := r.registry.connected.insert b q } : Registry).Dry p := hreset.of_peers rfl
  exact hplaced.modify q fun _ _ hu => ⟨hu,rfl⟩

/-- No try of a call puts anything into a record or tears it down. -/
theorem dry_attempt (call : Call) (hi : r.registry.Dry p) :
    (r.attempt call).2.2.registry.Dry p := by
  cases call with
  | accept =>
    simp only [attempt]
    split
    · exact hi
    · split
      · exact hi
      · rename_i h
        exact dry_acceptNext h hi
  | read q room =>
    simp only [attempt]
    split
    · exact hi
    · rename_i x hx
      split
      · refine hi.modify q fun y hy hu => ⟨?_,rfl⟩
        rw [hx] at hy
        obtain rfl := Option.some.inj hy
        show x.inbox.unread.drop room = []
        rw [hu,List.drop_nil]
      · split
        · exact hi.forget q
        · split
          · exact hi
          · exact hi

theorem dry_of_wait {q : PeerId} {room : Nat} {later : Call} (hr : 0 < room)
    (h : (r.attempt (.read q room)).1 = .wait later) : r.registry.Dry q := by
  cases hx : r.registry.peers[q]? with
  | none =>
    simp only [attempt,hx] at h
    cases h
  | some x =>
    rw [attempt_read hx hr] at h
    split at h
    · cases h
    · rename_i hu
      split at h
      · cases h
      · rename_i hc
        exact ⟨x,hx,Decidable.not_not.mp hu,Bool.not_eq_true _ ▸ hc⟩

/-- A read of a record that is torn down is answered at once. -/
theorem attempt_closed {q : PeerId} {room : Nat} {x : Peer} (hx : r.registry.peers[q]? = some x)
    (hc : x.closed = true) (hr : 0 < room) :
    (r.attempt (.read q room)).1 = .answer (.bytes (x.inbox.unread.take room)) := by
  rw [attempt_read hx hr]
  by_cases hu : x.inbox.unread = []
  · simp only [hu,ne_eq,not_true_eq_false,if_false,hc,if_true,List.take_nil]
  · simp only [ne_eq,hu,not_false_eq_true,if_true]
    rfl

theorem Alert.enter (h : r.Alert) {call : Call} (hc : ∀ p room, call = .read p room → 0 < room) :
    (r.enter call).1.Alert := by
  have ha : (r.attempt call).2.2.Alert :=
    h.same (attempt_waiting r call) fun _ hi => dry_attempt call hi
  simp only [Receiver.enter]
  split
  · exact ha
  · rename_i later ho
    intro w hw p room hcall hn
    rw [ho] at hw
    rcases List.mem_append.mp hw with hw | hw
    · exact ha w hw p room hcall hn
    · obtain rfl := List.mem_singleton.mp hw
      have hlater := attempt_wait ho
      have hread : call = .read p room := hlater.symm.trans hcall
      subst hread
      exact dry_attempt _ (dry_of_wait (hc p room rfl) ho)

theorem Alert.poll (h : r.Alert) (hs : r.Sound) (k : CallId) : (r.poll k).1.Alert := by
  cases hr : Waiting.ready? r.waiting k with
  | none =>
    rw [poll_none hr]
    exact h
  | some call =>
    have ha : (r.attempt call).2.2.Alert :=
      h.same (attempt_waiting r call) fun _ hi => dry_attempt call hi
    simp only [Receiver.poll,hr]
    split
    · rename_i result ho
      intro w hw p room hcall hn
      rw [ho] at hw
      exact ha w (List.mem_filter.mp hw).1 p room hcall hn
    · rename_i later ho
      intro w hw p room hcall hn
      rw [ho] at hw
      obtain ⟨v,hv,rfl⟩ := List.mem_map.mp hw
      by_cases hk : v.id = k
      · rw [if_pos hk] at hcall
        have hread : call = .read p room := (attempt_wait ho).symm.trans hcall
        subst hread
        exact dry_attempt _ (dry_of_wait (room_of_ready hs hr rfl) ho)
      · rw [if_neg hk] at hcall hn
        exact ha v hv p room hcall hn

theorem Alert.onDatagram (h : r.Alert) (source : Address) (raw : Bytes) :
    (r.onDatagram source raw).1.Alert := by
  unfold Receiver.onDatagram
  split
  · exact h
  · split
    · exact h
    · split
      · unfold onConnect
        split
        · split
          · exact h
          · exact h
        · exact h
        all_goals
          split
          · refine Alert.wakeAccepts (h.same rfl fun p hi => ?_)
            obtain ⟨x,hx,hi⟩ := hi
            have hlt := (List.getElem?_eq_some_iff.mp hx).1
            refine ⟨x,?_,hi⟩
            show (Registry.enqueue _ _ _).peers[p]? = _
            rw [Registry.peers_enqueue]
            show (r.registry.peers ++ _)[p]? = _
            rw [List.getElem?_append_left hlt,hx]
          · exact h
      · unfold onData
        split
        · exact h
        · rename_i q hq
          split
          · exact h
          · rename_i x hx
            split
            · exact h
            · simp only
              split
              · exact h.rouse q rfl fun p hp hi => hi.modify_ne hp _
              · rename_i hn
                refine h.same rfl fun p hi => hi.modify q fun y hy hu => ⟨?_,rfl⟩
                rw [hx] at hy
                obtain rfl := Option.some.inj hy
                rw [Option.not_isSome_iff_eq_none.mp hn]
                exact hu
      · unfold onClose
        split
        · exact h.same rfl fun p hi => hi.modify _ fun _ _ hu => ⟨hu,rfl⟩
        · split
          · rename_i hd
            refine h.same rfl fun p hi => hi.of_peers ?_
            rw [Registry.removePending_eq_some hd]
          · exact h
      · exact h

theorem Alert.onTick (h : r.Alert) (q : PeerId) : (r.onTick q).Alert := by
  unfold Receiver.onTick
  split
  · exact h
  · rename_i x hx
    split
    · have htick : ∀ p, r.registry.Dry p → (r.modify q fun peer =>
          { peer with silence := x.silence.tick r.settings.period }).registry.Dry p :=
        fun p hi => hi.modify q fun _ _ hu => ⟨hu,rfl⟩
      simp only
      split
      · refine h.rouse q rfl fun p hp hi => Dry.modify_ne ?_ hp _
        have hi := htick p hi
        split
        · split
          · rename_i hret
            have hpeers : ∀ {s : Registry} {a : Address} {e : PeerId × Registry},
                s.retire a = some e → e.2.peers = s.peers := by
              intro s a e he
              unfold Registry.retire at he
              split at he
              · cases he
              · obtain rfl := Option.some.inj he
                rfl
            exact hi.of_peers (hpeers hret)
          · exact hi
        · exact hi
      · exact h.same rfl htick
    · exact h

theorem Alert.shut (h : r.Alert) : r.shut.Alert := by
  have hfold : ∀ (qs : List PeerId) (t : Receiver), t.Alert →
      (qs.foldl (fun r p => (r.modify p .teardown).wakeReads p) t).Alert := by
    intro qs
    induction qs with
    | nil => exact fun _ ht => ht
    | cons q qs ih =>
      exact fun t ht => ih _ (ht.rouse q rfl fun p hp hi => hi.modify_ne hp _)
  unfold Receiver.shut
  split
  · exact h
  · refine hfold _ _ (Alert.wakeAccepts (h.same rfl fun p hi => ?_))
    exact hi.of_peers rfl

theorem Alert.acceptMany (fuel : Nat) (h : r.Alert) : (acceptMany fuel r).2.Alert := by
  induction fuel generalizing r with
  | zero => exact h
  | succ fuel ih =>
    unfold Receiver.acceptMany
    cases ha : r.acceptNext with
    | none => exact h
    | some e =>
      obtain ⟨a,frame,t⟩ := e
      refine ih (h.same ?_ fun p hi => dry_acceptNext ha hi)
      obtain ⟨_,_,_,_,_,_,_,rfl⟩ := acceptNext_eq_some ha
      rfl

/-- Whatever happens, a read that nobody wakes waits for a record that has nothing for it. -/
theorem Alert.react (h : r.Alert) (e : Event) : (r.react e).1.Alert := by
  cases e with
  | datagram source raw => exact h.onDatagram source raw
  | acceptOne => exact h.enter fun _ _ hc => by cases hc
  | acceptAll =>
    simp only [Receiver.react]
    split
    · exact h
    · exact h.acceptMany _
  | read a room =>
    simp only [Receiver.react]
    split
    · exact h
    · split
      · exact h
      · exact h
      · split
        · exact h
        · refine h.enter fun _ _ hc => ?_
          cases hc
          omega
  | tick q => exact h.onTick q
  | close => exact h.shut

theorem Alert.woken (h : r.Alert) {w : Waiting Call} (hw : w ∈ r.waiting) {room : Nat}
    (hc : w.call = .read p room) {x : Peer} (hx : r.registry.peers[p]? = some x)
    (hcl : x.closed = true) : w.woken = true := by
  cases hn : w.woken with
  | true => rfl
  | false =>
    obtain ⟨y,hy,_,hopen⟩ := h w hw p room hc hn
    rw [hx] at hy
    rw [Option.some.inj hy,hopen] at hcl
    cases hcl

end

end Receiver
end ReliableTransport
