import ReliableTransport.Proofs.Custody

/-! Which record an address stands for. Of the records made for an address, the one that waits, is
connected or is kept for its unread bytes is the newest, and if only the mark of the address is left,
the newest was torn down and read to its end (`Current.make`). -/
namespace ReliableTransport

namespace Registry

def Newest (r : Registry) (a : Address) (p : PeerId) : Prop :=
  ∃ x, r.peers[p]? = some x ∧ x.addr = a ∧
    ∀ q y, p < q → r.peers[q]? = some y → y.addr ≠ a

def Found (r : Registry) (a : Address) (p : PeerId) : Prop :=
  (a,p) ∈ r.pending ∨ r.connected.get? a = some p ∨ r.retired.get? a = some (.unread p)

structure Current (r : Registry) : Prop where
  newest : ∀ a p, r.Found a p → r.Newest a p
  drained : ∀ a, r.retired.get? a = some .drained →
    ∃ p x, r.Newest a p ∧ r.peers[p]? = some x ∧ x.closed = true ∧ x.inbox.unread = []

theorem current_empty (retiredCapacity : Nat) : (empty retiredCapacity).Current where
  newest := by
    rintro a p (h | h | h)
    · cases h
    · cases h
    · cases h
  drained := by simp [empty]

variable {r s : Registry} {a b : Address} {p : PeerId}

theorem found_of_readable (h : r.readable a = .live p) : r.Found a p := by
  unfold readable at h
  split at h
  · rename_i q hq
    cases h
    exact .inr (.inl hq)
  · split at h
    · rename_i q hq
      cases h
      exact .inr (.inr hq)
    · cases h
    · cases h

theorem drained_of_readable (h : r.readable a = .closed) :
    r.retired.get? a = some .drained := by
  unfold readable at h
  split at h
  · cases h
  · split at h
    · cases h
    · assumption
    · cases h

theorem unknown_of_readable (h : r.readable a = .unknown) :
    r.connected.get? a = none ∧ r.retired.get? a = none := by
  unfold readable at h
  split at h
  · cases h
  · split at h
    · cases h
    · cases h
    · exact ⟨‹_›,‹_›⟩

theorem Newest.append (h : r.Newest a p) {x : Peer} (hx : x.addr ≠ a)
    (hs : s.peers = r.peers ++ [x]) : s.Newest a p := by
  obtain ⟨y,hy,ha,hnew⟩ := h
  have hlt := (List.getElem?_eq_some_iff.mp hy).1
  refine ⟨y,by rw [hs,List.getElem?_append_left hlt,hy],ha,fun q z hq hz => ?_⟩
  rw [hs] at hz
  by_cases hql : q < r.peers.length
  · rw [List.getElem?_append_left hql] at hz
    exact hnew q z hq hz
  · rw [List.getElem?_append_right (Nat.le_of_not_lt hql)] at hz
    have hmem := List.mem_of_getElem? hz
    rw [List.mem_singleton.mp hmem]
    exact hx

theorem Current.enlist (h : r.Current) {x : Peer} (hc : r.connected.get? x.addr = none)
    (hp : r.pending.get? x.addr = none) :
    ((r.register x).2.enqueue x.addr r.peers.length).Current := by
  have hpeers : ((r.register x).2.enqueue x.addr r.peers.length).peers = r.peers ++ [x] :=
    peers_enqueue _ _ _
  have hother : ∀ b q, r.Found b q → b ≠ x.addr →
      ((r.register x).2.enqueue x.addr r.peers.length).Newest b q :=
    fun b q hf hne => (h.newest b q hf).append hne.symm hpeers
  refine ⟨?_,?_⟩
  · rintro b q (hq | hq | hq)
    · rw [pending_enqueue] at hq
      rcases List.mem_append.mp hq with hq | hq
      · refine hother b q (.inl hq) ?_
        rintro rfl
        have hkey : x.addr ∈ r.pending.keys := List.mem_map.mpr ⟨_,hq,rfl⟩
        exact Dict.not_mem_keys_iff.mpr hp hkey
      · simp only [List.mem_singleton,Prod.mk.injEq] at hq
        obtain ⟨rfl,rfl⟩ := hq
        refine ⟨x,by rw [hpeers,List.getElem?_concat_length],rfl,fun q y hlt hy => ?_⟩
        have hle := (List.getElem?_eq_some_iff.mp hy).1
        rw [hpeers,List.length_append,List.length_singleton] at hle
        have hlt' : r.peers.length < q := hlt
        omega
    · rw [connected_enqueue] at hq
      refine hother b q (.inr (.inl hq)) ?_
      rintro rfl
      have hq' : r.connected.get? x.addr = some q := hq
      rw [hc] at hq'
      cases hq'
    · obtain ⟨hne,hq⟩ := retired_enqueue hq
      exact hother b q (.inr (.inr hq)) hne
  · intro b hb
    obtain ⟨hne,hb⟩ := retired_enqueue hb
    obtain ⟨q,y,hnew,hy,hcl,hu⟩ := h.drained b hb
    have hlt := (List.getElem?_eq_some_iff.mp hy).1
    refine ⟨q,y,hnew.append hne.symm hpeers,?_,hcl,hu⟩
    rw [hpeers,List.getElem?_append_left hlt,hy]

theorem Greets.found (h : Greets r s) (hf : s.Found a p) : r.Found a p := by
  induction h with
  | none => exact hf
  | @next r s t q ha _ ih =>
    obtain ⟨b,rest,hpend,rfl⟩ := accept_eq_some_iff.mp ha
    rcases ih hf with hp | hc | hr
    · exact .inl (by rw [hpend]; exact List.mem_cons_of_mem _ hp)
    · have hc' : (r.connected.insert b q).get? a = some p := hc
      rw [Dict.get?_insert] at hc'
      split at hc'
      · rename_i hab
        obtain rfl := Option.some.inj hc'
        exact .inl (by rw [hpend,hab]; exact List.mem_cons_self)
      · exact .inr (.inl hc')
    · exact .inr (.inr hr)

theorem Greets.length (h : Greets r s) : s.peers.length = r.peers.length := by
  induction h with
  | none => rfl
  | next ha _ ih =>
    obtain ⟨b,rest,_,rfl⟩ := accept_eq_some_iff.mp ha
    rw [ih,length_modify]
    exact length_modify _ _ _

theorem retired_retiring {v w : Retired} (h : (r.retiring a v).retired.get? b = some w) :
    (b = a ∧ w = v) ∨ r.retired.get? b = some w := by
  have hkey : b ∈ (r.retiring a v).retired.keys := Dict.mem_keys_iff.mpr (by rw [h]; rfl)
  rw [get?_retiring hkey] at h
  split at h
  · exact .inl ⟨‹_›,(Option.some.inj h).symm⟩
  · exact .inr h

end Registry

namespace Receiver

open Registry (Newest Found Current)

variable {r : Receiver} {s : Registry} {m : Move} {a : Address} {p : PeerId}

/-- A record is made by a request to connect from an address that stands nowhere, and only so. -/
theorem Change.grows (hs : Change r m s) :
    s.peers.length = r.registry.peers.length ∨
      ∃ (a : Address) (raw : Bytes) (frame : Frame), m = .event (.datagram a raw) ∧
        Frame.receive raw = .ok frame ∧ frame.kind = .rcon ∧
        r.registry.connected.get? a = none ∧ r.registry.pending.get? a = none ∧
        s = (r.registry.register
          (.start a frame.fragment r.settings.capacity r.settings.threshold)).2.enqueue a
            r.registry.peers.length := by
  cases hs with
  | rest hs hn => exact .inl hn
  | @enlist a raw frame hm hf hk hc hp hs => exact .inr ⟨a,raw,frame,hm,hf,hk,hc,hp,hs⟩
  | greet hs => exact .inl hs.length
  | drop hs => exact .inl (by rw [Registry.removePending_eq_some hs])
  | fall hm hx hc hs hn hy hcl hi => exact .inl hn
  | finish hx hcl hu hs => exact .inl (by rw [hs,Registry.peers_forgetDrained])
  | shut hm hp hc hr ho hcap hn => exact .inl hn

theorem Change.found (hs : Change r m s) (hn : s.peers.length = r.registry.peers.length)
    (hf : s.Found a p) : r.registry.Found a p := by
  cases hs with
  | rest hs _ =>
    unfold Found at hf
    rw [hs.pending,hs.connected,hs.retired] at hf
    exact hf
  | enlist hm hfr hk hc hp hs =>
    rw [hs,Registry.peers_enqueue] at hn
    simp [Registry.register] at hn
  | greet hs => exact hs.found hf
  | drop hs =>
    rw [Registry.removePending_eq_some hs] at hf
    rcases hf with hp | hc | hr
    · exact .inl (List.eraseP_sublist.subset hp)
    · exact .inr (.inl hc)
    · exact .inr (.inr hr)
  | @fall q x y hm hx hc hs _ hy hcl hi =>
    unfold Found at hf
    rw [hs.pending,hs.connected,hs.retired] at hf
    rcases hf with hp | hconn | hr
    · exact .inl hp
    · have hconn : (r.registry.connected.erase x.addr).get? a = some p := hconn
      rw [Dict.get?_erase] at hconn
      split at hconn
      · cases hconn
      · exact .inr (.inl hconn)
    · rcases Registry.retired_retiring hr with ⟨rfl,hv⟩ | hr
      · obtain rfl := Registry.relic_eq_unread hv.symm
        exact .inr (.inl hc)
      · exact .inr (.inr hr)
  | finish hx hcl hu hs =>
    rw [hs] at hf
    rcases hf with hp | hc | hr
    · rw [Registry.pending_forgetDrained] at hp
      exact .inl hp
    · rw [Registry.connected_forgetDrained] at hc
      exact .inr (.inl hc)
    · rcases Registry.retired_forgetDrained hr with ⟨_,_,hv⟩ | hr
      · cases hv
      · exact .inr (.inr hr)
  | shut hm hp hc hr ho hcap _ =>
    unfold Found at hf
    rw [hp,hc,hr] at hf
    rcases hf with hf | hf | hf
    · cases hf
    · cases hf
    · cases hf

/-- A mark alone is left of a record that was torn down with everything read. -/
theorem Change.drained (hs : Change r m s) (hn : s.peers.length = r.registry.peers.length)
    (hd : s.retired.get? a = some .drained) :
    r.registry.retired.get? a = some .drained ∨
      ∃ p y, r.registry.Found a p ∧ s.peers[p]? = some y ∧ y.closed = true ∧
        y.inbox.unread = [] := by
  cases hs with
  | rest hs _ => exact .inl (by rw [← hs.retired,hd])
  | enlist hm hfr hk hc hp hs =>
    rw [hs,Registry.peers_enqueue] at hn
    simp [Registry.register] at hn
  | greet hs => exact .inl (by rw [← hs.places.1,hd])
  | drop hs =>
    rw [Registry.removePending_eq_some hs] at hd
    exact .inl hd
  | @fall q x y hm hx hc hs _ hy hcl hi =>
    rw [hs.retired] at hd
    rcases Registry.retired_retiring hd with ⟨rfl,hv⟩ | hd
    · refine .inr ⟨q,y,.inr (.inl hc),hy,hcl,?_⟩
      rw [hi]
      exact Registry.relic_eq_drained hx hv.symm
    · exact .inl hd
  | @finish q x hx hcl hu hs =>
    rw [hs] at hd
    rcases Registry.retired_forgetDrained hd with ⟨_,hret,_⟩ | hd
    · exact .inr ⟨q,x,.inr (.inr hret),by rw [hs,Registry.peers_forgetDrained,hx],hcl,hu⟩
    · exact .inl hd
  | shut hm hp hc hr ho hcap _ =>
    rw [hr] at hd
    cases hd

/-- A record that was the newest of its address still is, unless one is made. -/
theorem newest_make (hsound : r.Sound)
    (hn : (r.make m).1.registry.peers.length = r.registry.peers.length)
    (h : r.registry.Newest a p) : (r.make m).1.registry.Newest a p := by
  obtain ⟨x,hx,hadd,hnew⟩ := h
  obtain ⟨y,hy,hold⟩ := make_aged hsound m hx
  refine ⟨y,hy,by rw [hold.addr,hadd],fun q z hq hz => ?_⟩
  have hlt := (List.getElem?_eq_some_iff.mp hz).1
  rw [hn] at hlt
  have hw := List.getElem?_eq_getElem hlt
  obtain ⟨z',hz',hold'⟩ := make_aged hsound m hw
  rw [hz] at hz'
  rw [Option.some.inj hz',hold'.addr]
  exact hnew q _ hq hw

theorem Current.make (h : r.registry.Current) (hsound : r.Sound) (m : Move) :
    (r.make m).1.registry.Current := by
  have hchange := make_change hsound m
  rcases hchange.grows with hn | ⟨a,raw,frame,_,_,_,hc,hp,hs⟩
  · refine ⟨fun a p hf => newest_make hsound hn (h.newest a p (hchange.found hn hf)),?_⟩
    intro a hd
    rcases hchange.drained hn hd with hd | ⟨p,y,hf,hy,hcl,hu⟩
    · obtain ⟨p,x,hnew,hx,hcl,hu⟩ := h.drained a hd
      obtain ⟨y,hy,hold⟩ := make_aged hsound m hx
      exact ⟨p,y,newest_make hsound hn hnew,hy,hold.closed hcl,hold.spent hcl hu⟩
    · exact ⟨p,y,newest_make hsound hn (h.newest a p hf),hy,hcl,hu⟩
  · rw [hs]
    exact h.enlist hc hp

theorem Current.play (h : r.registry.Current) (hsound : r.Sound) (ms : List Move) :
    (r.play ms).1.registry.Current :=
  (chain_induct (P := fun t : Receiver => t.Sound ∧ t.registry.Current) ⟨hsound,h⟩
    (fun _ ht m => ⟨ht.1.make m,Current.make ht.2 ht.1 m⟩) ms).2

end Receiver
end ReliableTransport
