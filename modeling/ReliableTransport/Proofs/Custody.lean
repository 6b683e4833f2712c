import ReliableTransport.Proofs.Places

/-! What becomes of the bytes a receiver has taken. Of every record, what was handed to readers and
what is unread make up the payloads accepted into it (`returned_append_unread`), and as long as there
are unread bytes a reader of the address finds them there, across teardown, until the mark of the
address is forgotten (`Held.play`). -/
namespace ReliableTransport

namespace Registry

def unreadOf (r : Registry) (p : PeerId) : Bytes :=
  match r.peers[p]? with
  | some x => x.inbox.unread
  | none => []

theorem unreadOf_eq {r : Registry} {p : PeerId} {x : Peer} (hx : r.peers[p]? = some x) :
    r.unreadOf p = x.inbox.unread := by
  rw [unreadOf,hx]

section

variable {hears : Address → Frame → Prop} {capacity : Nat} {threshold : Duration}
  {shutting : Prop} {r s : Registry} {ds : List Deed} {p : PeerId} {x : Peer}

theorem Act.conserves (ha : Act hears capacity threshold shutting r ds s) (h : r.Sound)
    (p : PeerId) :
    (handings p ds).flatten ++ s.unreadOf p = r.unreadOf p ++ (takings p ds).flatten := by
  cases hx : r.peers[p]? with
  | some x =>
    obtain ⟨y,hy,_,hp⟩ := ha.record h hx
    rw [unreadOf_eq hx,unreadOf_eq hy]
    cases hp with
    | keep _ ht hh => rw [ht,hh,List.flatten_nil,List.append_nil]
    | take hf hk hc hcl ho ht hh =>
      rw [ht,hh,(Inbox.offer_eq_some_iff.mp ho).2]
      simp
  | none =>
    obtain ⟨ht,hh⟩ := ha.silent hx
    have hr : r.unreadOf p = [] := by rw [unreadOf,hx]
    have hs : s.unreadOf p = [] := by
      cases hy : s.peers[p]? with
      | none => rw [unreadOf,hy]
      | some y =>
        rcases ha.origin h hy with ⟨z,hz,_⟩ | ⟨_,_,a,frame,_,_,rfl⟩
        · rw [hx] at hz
          cases hz
        · exact unreadOf_eq hy
    rw [ht,hh,hr,hs]
    rfl

theorem Acts.conserves (ha : Acts hears capacity threshold shutting r ds s) (h : r.Sound)
    (p : PeerId) :
    (handings p ds).flatten ++ s.unreadOf p = r.unreadOf p ++ (takings p ds).flatten := by
  induction ha with
  | done => simp
  | next ha _ ih =>
    rw [handings_append,takings_append,List.flatten_append,List.flatten_append,List.append_assoc,
      ih (ha.sound h),← List.append_assoc,ha.conserves h p,List.append_assoc]

theorem Act.heard (ha : Act hears capacity threshold shutting r ds s) (h : r.Sound)
    {payload : Bytes} (ht : payload ∈ takings p ds) :
    ∃ a frame, hears a frame ∧ frame.payload = payload := by
  cases hx : r.peers[p]? with
  | none =>
    rw [(ha.silent hx).1] at ht
    cases ht
  | some x =>
    obtain ⟨y,hy,_,hp⟩ := ha.record h hx
    cases hp with
    | keep _ hnone _ =>
      rw [hnone] at ht
      cases ht
    | take hf _ _ _ _ hone _ =>
      rw [hone] at ht
      exact ⟨_,_,hf,(List.mem_singleton.mp ht).symm⟩

theorem Acts.heard (ha : Acts hears capacity threshold shutting r ds s) (h : r.Sound)
    {payload : Bytes} (ht : payload ∈ takings p ds) :
    ∃ a frame, hears a frame ∧ frame.payload = payload := by
  induction ha with
  | done => cases ht
  | next ha _ ih =>
    rw [takings_append,List.mem_append] at ht
    rcases ht with ht | ht
    · exact ha.heard h ht
    · exact ih (ha.sound h) ht

/-- The record `y` is `x` at a later time; if it was torn down with nothing left to read, it has
nothing to read still. -/
structure Aged (x y : Peer) : Prop extends Later x y where
  spent : x.closed = true → x.inbox.unread = [] → y.inbox.unread = []

theorem Acts.aged (ha : Acts hears capacity threshold shutting r ds s) (h : r.Sound)
    (hx : r.peers[p]? = some x) : ∃ y, s.peers[p]? = some y ∧ Aged x y := by
  induction ha generalizing x with
  | done => exact ⟨x,hx,.refl x,fun _ hu => hu⟩
  | next ha _ ih =>
    obtain ⟨y,hy,hxy,hp⟩ := ha.record h hx
    obtain ⟨z,hz,hyz,hspent⟩ := ih (ha.sound h) hy
    refine ⟨z,hz,hxy.trans hyz,fun hcl hu => hspent (hxy.closed hcl) ?_⟩
    cases hp with
    | keep _ _ hh =>
      rw [hu,List.append_eq_nil_iff] at hh
      exact hh.2
    | take _ _ hc _ _ _ _ =>
      obtain ⟨w,hw,_,hopen⟩ := h.connected _ _ hc
      rw [hx] at hw
      rw [← Option.some.inj hw,hcl] at hopen
      cases hopen

end

end Registry

namespace Receiver

open Registry (Tidy takings handings)

variable {r t : Receiver} {m : Move} {a : Address} {p : PeerId} {x : Peer}

theorem make_aged (h : r.Sound) (m : Move) (hx : r.registry.peers[p]? = some x) :
    ∃ y, (r.make m).1.registry.peers[p]? = some y ∧ Registry.Aged x y :=
  Registry.Acts.aged (make_performs h m) h.registry hx

/-- The payload that a move takes into a record: that of the datagram it brings, if the record waits
for another fragment afterwards. -/
def acceptedBy (p : PeerId) (r : Receiver) (m : Move) : List Bytes :=
  match m with
  | .event (.datagram _ raw) =>
    match Frame.receive raw,r.registry.peers[p]?,(r.make m).1.registry.peers[p]? with
    | .ok frame, some x, some y => if y.inbox.next = x.inbox.next then [] else [frame.payload]
    | _, _, _ => []
  | _ => []

def returnedBy (p : PeerId) (r : Receiver) (m : Move) : List Bytes :=
  handings p (m.deeds r (r.make m).1 (r.make m).2)

def accepted (r : Receiver) (ms : List Move) (p : PeerId) : List Bytes := r.tally (acceptedBy p) ms

/-- What the readers of a record were given in moves in a row, one read after the other. -/
def returned (r : Receiver) (ms : List Move) (p : PeerId) : List Bytes := r.tally (returnedBy p) ms

theorem takings_told (p : PeerId) (a : Address) (q : Option PeerId) (os : List Output) :
    takings p (told a q os) = [] := by
  induction os with
  | nil => rfl
  | cons o os ih =>
    have hcons : told a q (o :: os) = told a q [o] ++ told a q os :=
      List.filterMap_append (l := [o])
    rw [hcons,Registry.takings_append,ih,List.append_nil]
    cases o with
    | send dest frame => rfl
    | finish k result =>
      cases result with
      | bytes data =>
        by_cases hd : data = []
        · simp [told,hd]
        · cases q with
          | none => simp [told,hd]
          | some q => simp [told,hd]
      | _ => rfl

theorem takings_deeds_of_ne {os : List Output} (p : PeerId)
    (hm : ∀ a raw, m ≠ .event (.datagram a raw)) : takings p (m.deeds r t os) = [] := by
  cases m with
  | event e =>
    cases e with
    | datagram source raw => exact absurd rfl (hm source raw)
    | read a room =>
      simp only [Move.deeds,Event.deeds]
      split
      · rfl
      · exact takings_told p _ _ _
    | acceptOne => exact takings_sentBy p os
    | acceptAll => exact takings_sentBy p os
    | tick q => exact takings_sentBy p os
    | close => exact takings_sentBy p os
  | retry k =>
    simp only [Move.deeds,polled]
    split
    · rfl
    · rename_i call _
      cases call with
      | accept => exact takings_sentBy p os
      | read q room =>
        simp only [Call.deeds]
        split
        · rfl
        · exact takings_told p _ _ _

/-- What a datagram has taken into a record is at most one payload, and the record waits for another
fragment then. -/
theorem takings_tookFrom (r t : Receiver) (a : Address) (p : PeerId) :
    takings p (tookFrom a r t) = [] ∨
      ∃ x y payload, r.registry.peers[p]? = some x ∧ t.registry.peers[p]? = some y ∧
        y.inbox.next ≠ x.inbox.next ∧ takings p (tookFrom a r t) = [payload] := by
  unfold tookFrom
  split
  · exact .inl rfl
  · rename_i q _
    split
    · rename_i x y hx hy
      split
      · exact .inl rfl
      · rename_i hne
        by_cases hq : q = p
        · subst hq
          exact .inr ⟨x,y,_,hx,hy,hne,by rw [Registry.takings_cons_took,if_pos rfl]; rfl⟩
        · exact .inl (by simp [hq])
    · exact .inl rfl

theorem takings_deeds (h : r.Sound) (p : PeerId) (m : Move) :
    takings p (m.deeds r (r.make m).1 (r.make m).2) = r.acceptedBy p m := by
  have ha := make_performs h m
  by_cases hm : ∃ a raw, m = .event (.datagram a raw)
  · obtain ⟨a,raw,rfl⟩ := hm
    have hdeeds : takings p (Move.deeds r (r.make (.event (.datagram a raw))).1
        (r.make (.event (.datagram a raw))).2 (.event (.datagram a raw))) =
        takings p (tookFrom a r (r.make (.event (.datagram a raw))).1) := by
      simp only [Move.deeds,Event.deeds,Registry.takings_append,takings_sentBy,List.append_nil]
    rcases takings_tookFrom r (r.make (.event (.datagram a raw))).1 a p with
      hnone | ⟨x,y,payload,hx,hy,hne,hone⟩
    · rw [hdeeds,hnone,acceptedBy]
      split
      · rename_i frame x y _ hx hy
        obtain ⟨z,hz,hn⟩ := Registry.Acts.next_eq ha h.registry (hdeeds.trans hnone) hx
        rw [hy] at hz
        rw [Option.some.inj hz,if_pos hn]
      · rfl
    · have hmem : payload ∈ takings p (Move.deeds r (r.make (.event (.datagram a raw))).1
          (r.make (.event (.datagram a raw))).2 (.event (.datagram a raw))) := by
        rw [hdeeds,hone]
        exact List.mem_singleton.mpr rfl
      obtain ⟨b,frame,⟨raw',he,hf⟩,hpayload⟩ := Registry.Acts.heard ha h.registry hmem
      cases he
      rw [hdeeds,hone,acceptedBy]
      simp only [hf,hx,hy,if_neg hne,hpayload]
  · have hne : ∀ a raw, m ≠ .event (.datagram a raw) := fun a raw he => hm ⟨a,raw,he⟩
    rw [takings_deeds_of_ne p hne]
    unfold acceptedBy
    split
    · rename_i source raw
      exact absurd rfl (hne source raw)
    · rfl

theorem make_conserves (h : r.Sound) (p : PeerId) (m : Move) :
    (r.returnedBy p m).flatten ++ (r.make m).1.registry.unreadOf p =
      r.registry.unreadOf p ++ (r.acceptedBy p m).flatten := by
  rw [← takings_deeds h p m]
  exact Registry.Acts.conserves (make_performs h m) h.registry p

/-- Of what a record held at first and what was accepted into it, every byte has been handed out
once, in order, or is unread. -/
theorem returned_append_unread (h : r.Sound) (ms : List Move) (p : PeerId) :
    (r.returned ms p).flatten ++ (r.play ms).1.registry.unreadOf p =
      r.registry.unreadOf p ++ (r.accepted ms p).flatten := by
  induction ms generalizing r with
  | nil => simp [returned,accepted,tally,play]
  | cons m ms ih =>
    have hlater := ih (h.make m)
    have hnow := make_conserves h p m
    simp only [returned,accepted,tally,List.flatten_append] at hlater ⊢
    calc (r.returnedBy p m).flatten ++ ((r.make m).1.tally (returnedBy p) ms).flatten ++
          (r.play (m :: ms)).1.registry.unreadOf p
        = (r.returnedBy p m).flatten ++ (((r.make m).1.tally (returnedBy p) ms).flatten ++
            ((r.make m).1.play ms).1.registry.unreadOf p) := by rw [List.append_assoc]; rfl
      _ = (r.returnedBy p m).flatten ++ ((r.make m).1.registry.unreadOf p ++
            ((r.make m).1.tally (acceptedBy p) ms).flatten) := by rw [hlater]
      _ = r.registry.unreadOf p ++ ((r.acceptedBy p m).flatten ++
            ((r.make m).1.tally (acceptedBy p) ms).flatten) := by
          rw [← List.append_assoc,hnow,List.append_assoc]

/-- The record `p`, connected under the address `a` once, is where a reader of `a` finds it, or has
nothing more for a reader. -/
def Held (r : Receiver) (a : Address) (p : PeerId) : Prop :=
  r.registry.connected.get? a = some p ∨
    ∃ x, r.registry.peers[p]? = some x ∧ x.closed = true ∧
      (x.inbox.unread = [] ∨ r.registry.retired.get? a = some (.unread p))

/-- The mark of `a` is forgotten; if by a request to connect, then after the teardown of `p`. -/
def Yields (r : Receiver) (a : Address) (p : PeerId) (m : Move) : Prop :=
  Forgets r a m ∧ ∀ raw, m = .event (.datagram a raw) →
    ∃ x, r.registry.peers[p]? = some x ∧ x.closed = true

end Receiver

namespace Registry

variable {r s : Registry} {a b : Address} {p : PeerId} {v : Retired}

theorem get?_retiring (h : b ∈ (r.retiring a v).retired.keys) :
    (r.retiring a v).retired.get? b = if b = a then some v else r.retired.get? b := by
  have hn := (Dict.mem_keys_eraseAll.mp h).1
  show ((r.retired.insert a v).eraseAll _).get? b = _
  rw [Dict.get?_eraseAll,if_neg hn,Dict.get?_insert]

theorem Greets.connected (h : Greets r s) (ht : r.Tidy) (hc : r.connected.get? a = some p) :
    s.connected.get? a = some p := by
  induction h with
  | none => exact hc
  | @next r s t q ha _ ih =>
    refine ih ((ht.accept ha).alike (alike_modify _ _ _)) ?_
    obtain ⟨b,rest,hpend,rfl⟩ := accept_eq_some_iff.mp ha
    have hwaits : b ∈ r.pending.keys := by
      rw [hpend]
      exact List.mem_cons_self
    have hconn : a ∈ r.connected.keys := Dict.mem_keys_iff.mpr (by rw [hc]; rfl)
    have hne : a ≠ b := by
      rintro rfl
      exact ht.pending_connected a hwaits hconn
    show (r.connected.insert b q).get? a = some p
    rw [Dict.get?_insert,if_neg hne]
    exact hc

end Registry

namespace Receiver

open Registry (Tidy)

variable {r : Receiver} {m : Move} {a : Address} {p : PeerId}

/-- A connected record stays connected, or is torn down and kept for its unread bytes. -/
theorem Held.of_connected (hs : Change r m (r.make m).1.registry) (h : r.registry.Tidy)
    (hc : r.registry.connected.get? a = some p) : (r.make m).1.Held a p ∨ r.Yields a p m := by
  cases hs with
  | rest hs hn => exact .inl (.inl (by rw [hs.connected,hc]))
  | enlist hm hf hk hnc hp hs => exact .inl (.inl (by rw [hs,Registry.connected_enqueue]; exact hc))
  | greet hs => exact .inl (.inl (hs.connected h hc))
  | drop hs => exact .inl (.inl (by rw [Registry.removePending_eq_some hs]; exact hc))
  | @fall q x y hm hx hcq hs hn hy hcl hi =>
    by_cases ha : a = x.addr
    · subst ha
      obtain rfl : q = p := Option.some.inj (hcq.symm.trans hc)
      by_cases hu : y.inbox.unread = []
      · exact .inl (.inr ⟨y,hy,hcl,.inl hu⟩)
      · have hrelic : r.registry.relic q = .unread q := by
          rw [hi] at hu
          simp [Registry.relic,hx,hu]
        by_cases hmark : x.addr ∈ (r.registry.retiring x.addr (r.registry.relic q)).retired.keys
        · refine .inl (.inr ⟨y,hy,hcl,.inr ?_⟩)
          rw [hs.retired,Registry.get?_retiring hmark,if_pos rfl,hrelic]
        · obtain ⟨hfull,hold⟩ := h.evicted (.inl rfl) hmark
          refine .inr ⟨.evicted hm hx hcq ?_ hfull hold,fun raw he => ?_⟩
          · rw [hs.connected]
            show (r.registry.connected.erase x.addr).get? x.addr = none
            rw [Dict.get?_erase,if_pos rfl]
          · rw [hm] at he
            cases he
    · refine .inl (.inl ?_)
      rw [hs.connected]
      show (r.registry.connected.erase x.addr).get? a = some p
      rw [Dict.get?_erase,if_neg ha]
      exact hc
  | finish hx hcl hu hs => exact .inl (.inl (by rw [hs,Registry.connected_forgetDrained]; exact hc))
  | shut hm hp hnc hr ho hcap hn =>
    exact .inr ⟨.closed hm,fun raw he => by rw [hm] at he; cases he⟩

/-- A record kept for its unread bytes stays until they are read or its mark is forgotten. -/
theorem Held.of_retired (hsound : r.Sound) (h : r.registry.Tidy) {x : Peer}
    (hx : r.registry.peers[p]? = some x) (hcl : x.closed = true)
    (hr : r.registry.retired.get? a = some (.unread p)) :
    (r.make m).1.Held a p ∨ r.Yields a p m := by
  obtain ⟨y,hy,hold⟩ := make_aged hsound m hx
  have hclosed := hold.closed hcl
  have hmark : a ∈ r.registry.retired.keys := Dict.mem_keys_iff.mpr (by rw [hr]; rfl)
  have hchange := make_change hsound m
  by_cases hgone : a ∈ (r.make m).1.registry.retired.keys
  · have hsame : (r.make m).1.registry.retired.get? a = some (.unread p) →
        (r.make m).1.Held a p ∨ r.Yields a p m :=
      fun hret => .inl (.inr ⟨y,hy,hclosed,.inr hret⟩)
    cases hchange with
    | rest hs hn => exact hsame (by rw [hs.retired,hr])
    | @enlist b raw frame hm hf hk hnc hp hs =>
      refine hsame ?_
      have heq := (h.alike (alike_enlist r _)).enqueue_eq _ _ ▸ hs
      rw [heq] at hgone ⊢
      show (r.registry.retired.erase b).get? a = _
      rw [Dict.get?_erase,if_neg (Dict.mem_keys_erase.mp hgone).1,hr]
    | greet hs => exact hsame (by rw [hs.places.1,hr])
    | drop hs => exact hsame (by rw [Registry.removePending_eq_some hs]; exact hr)
    | @fall q z w hm hz hcq hs hn hw hwcl hi =>
      have hne : a ≠ z.addr := by
        rintro rfl
        exact h.connected_retired z.addr (Dict.mem_keys_iff.mpr (by rw [hcq]; rfl)) hmark
      refine hsame ?_
      rw [hs.retired] at hgone ⊢
      rw [Registry.get?_retiring hgone,if_neg hne,hr]
    | @finish q z hz hzcl hu hs =>
      by_cases hqp : q = p
      · subst hqp
        obtain rfl : z = x := Option.some.inj (hz.symm.trans hx)
        exact .inl (.inr ⟨y,hy,hclosed,.inl (hold.spent hcl hu)⟩)
      · refine hsame ?_
        obtain ⟨marks,heq,_,hmarks⟩ := Registry.forgetDrained_eq r.registry q
        rw [hs,heq]
        show marks.get? a = _
        rw [hmarks,hr,if_neg]
        rintro ⟨_,hret⟩
        cases hret
        exact hqp rfl
    | shut hm hp hnc hret ho hcap hn =>
      rw [hret] at hgone
      cases hgone
  · exact .inr ⟨hchange.forgets h hmark hgone,fun _ _ => ⟨x,hx,hcl⟩⟩

theorem Held.make (hh : r.Held a p) (hsound : r.Sound) (h : r.registry.Tidy) (m : Move) :
    (r.make m).1.Held a p ∨ r.Yields a p m := by
  rcases hh with hc | ⟨x,hx,hcl,hu | hr⟩
  · exact Held.of_connected (make_change hsound m) h hc
  · obtain ⟨y,hy,hold⟩ := make_aged hsound m hx
    exact .inl (.inr ⟨y,hy,hold.closed hcl,.inl (hold.spent hcl hu)⟩)
  · exact Held.of_retired hsound h hx hcl hr

/-- A record is held until a move that forgets the mark of its address. -/
theorem Held.play (hh : r.Held a p) (hsound : r.Sound) (h : r.registry.Tidy) (ms : List Move) :
    (r.play ms).1.Held a p ∨
      ∃ xs m ys, ms = xs ++ m :: ys ∧ (r.play xs).1.Yields a p m := by
  induction ms generalizing r with
  | nil => exact .inl hh
  | cons m ms ih =>
    rcases hh.make hsound h m with hh' | hy
    · rcases ih hh' (hsound.make m) ((make_change hsound m).tidy h) with
        hheld | ⟨xs,n,ys,rfl,hy⟩
      · exact .inl hheld
      · exact .inr ⟨m :: xs,n,ys,rfl,hy⟩
    · exact .inr ⟨[],m,ms,rfl,hy⟩

/-- A record that is held and has unread bytes is what a reader of its address reads from. -/
theorem Held.readable (hh : r.Held a p) (h : r.registry.Tidy)
    (hu : r.registry.unreadOf p ≠ []) : r.registry.readable a = .live p := by
  rcases hh with hc | ⟨x,hx,_,hnil | hr⟩
  · rw [Registry.readable,hc]
  · rw [Registry.unreadOf_eq hx] at hu
    exact absurd hnil hu
  · have hmark : a ∈ r.registry.retired.keys := Dict.mem_keys_iff.mpr (by rw [hr]; rfl)
    have hnone : r.registry.connected.get? a = none :=
      Dict.not_mem_keys_iff.mp fun hconn => h.connected_retired a hconn hmark
    rw [Registry.readable,hnone,hr]

end Receiver
end ReliableTransport
