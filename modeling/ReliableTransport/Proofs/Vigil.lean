import ReliableTransport.Proofs.Bystanders
import ReliableTransport.Proofs.Fates
import ReliableTransport.Proofs.Lapses

/-! Why a call at a receiver still waits when no call is awake. Whoever waits for somebody to accept
finds nobody, and whoever reads waits for the connected record of an address, open and read to its
end (`Posted.rest`): `Alert` and `Eager` say what a call that nobody woke has missed, here is added
that its record is still in service (`Based`) and that a closed receiver has woken everybody. So all
calls that wait when a receiver is closed are answered, each with the answer that its kind has for
the end (`Dismisses`). -/
namespace ReliableTransport

/-- A record is the connected one of its address, or torn down. -/
def Vital.Based (v : Vital) : Prop := v.seated = true ∨ v.closed = true

theorem Vital.Care.based {period : Duration} {v w : Vital} {signs : List Sign}
    (hc : Care period v signs w) (h : v.Based) : w.Based := by
  cases hc with
  | join _ => exact .inl rfl
  | lapse _ _ => exact .inr rfl
  | _ => exact h

namespace Registry

variable {r : Registry} {p : PeerId} {x : Peer}

theorem closed_foldl_teardown {ps : List PeerId} (hx : r.peers[p]? = some x)
    (h : p ∈ ps ∨ x.closed = true) :
    ∃ y, (ps.foldl (fun r q => r.modify q .teardown) r).peers[p]? = some y ∧ y.closed = true ∧
      y.inbox = x.inbox := by
  induction ps generalizing r x with
  | nil => exact ⟨x,hx,h.resolve_left List.not_mem_nil,rfl⟩
  | cons q ps ih =>
    by_cases hq : q = p
    · subst hq
      obtain ⟨y,hy,hcl,hi⟩ := ih (x := x.teardown) (peers_modify_self hx) (.inr rfl)
      exact ⟨y,hy,hcl,hi⟩
    · exact ih ((peers_modify_ne _ hq).trans hx)
        (h.imp_left fun hm => (List.mem_cons.mp hm).resolve_left (Ne.symm hq))

theorem closed_shut (hx : r.peers[p]? = some x)
    (h : r.connected.get? x.addr = some p ∨ x.closed = true) :
    ∃ y, r.shut.peers[p]? = some y ∧ y.closed = true ∧ y.inbox = x.inbox :=
  closed_foldl_teardown (r := r.drain.2) hx
    (h.imp_left fun hc => List.mem_map.mpr ⟨_,Dict.mem_of_get? hc,rfl⟩)

end Registry

namespace Receiver

open Registry (Tidy)

variable {r t : Receiver} {p : PeerId} {k : CallId}

/-- A record is the connected one of its address, or torn down. -/
def Based (r : Receiver) (p : PeerId) : Prop := ∃ v, r.registry.vital p = some v ∧ v.Based

theorem based_of_peer {x : Peer} (hx : r.registry.peers[p]? = some x)
    (h : r.registry.connected.get? x.addr = some p ∨ x.closed = true) : r.Based p :=
  ⟨_,Registry.vital_eq hx,h.imp_left decide_eq_true⟩

theorem Based.peer (h : r.Based p) : ∃ x, r.registry.peers[p]? = some x ∧
    (r.registry.connected.get? x.addr = some p ∨ x.closed = true) := by
  obtain ⟨v,hv,hb⟩ := h
  obtain ⟨x,hx,rfl⟩ := Option.map_eq_some_iff.mp hv
  exact ⟨x,hx,hb.imp_left of_decide_eq_true⟩

theorem Based.closed (h : r.Based p) (hb : r.Bare) (hc : r.closing = true) :
    ∃ x, r.registry.peers[p]? = some x ∧ x.closed = true := by
  obtain ⟨x,hx,hseat | hcl⟩ := h.peer
  · rw [(hb hc).connected] at hseat
    cases hseat
  · exact ⟨x,hx,hcl⟩

theorem Based.make (h : r.Based p) (hs : r.Sound) (ht : r.registry.Tidy) (hb : r.Bare)
    (m : Move) : (r.make m).1.Based p := by
  cases hcl : (r.make m).1.closing with
  | false =>
    obtain ⟨v,hv,hbased⟩ := h
    obtain ⟨w,hw,hcare⟩ := make_cares hs ht hcl p v hv
    exact ⟨w,hw,hcare.based hbased⟩
  | true =>
    cases hc : r.closing with
    | true =>
      obtain ⟨x,hx,hxc⟩ := h.closed hb hc
      obtain ⟨y,hy,haged⟩ := make_aged hs m hx
      exact based_of_peer hy (.inr (haged.closed hxc))
    | false =>
      have hm : m = .event .close := by
        refine Decidable.byContradiction fun hm => ?_
        rw [make_closing hm,hc] at hcl
        cases hcl
      obtain ⟨x,hx,hbased⟩ := h.peer
      obtain ⟨y,hy,hyc,_⟩ := Registry.closed_shut hx hbased
      refine based_of_peer (x := y) ?_ (.inr hyc)
      rw [hm]
      exact (congrArg (fun g : Registry => g.peers[p]?) (shut_registry hc)).trans hy

theorem based_of_readable (hs : r.Sound) {a : Address} (hl : r.registry.readable a = .live p) :
    r.Based p := by
  unfold Registry.readable at hl
  split at hl
  · rename_i q hc
    cases hl
    obtain ⟨x,hx,rfl,_⟩ := hs.registry.connected a p hc
    exact based_of_peer hx (.inl hc)
  · split at hl
    · rename_i q hq
      cases hl
      obtain ⟨x,hx,_,hcl⟩ := hs.registry.unread a p hq
      exact based_of_peer hx (.inr hcl)
    · cases hl
    · cases hl

def Roused (r : Receiver) : Prop :=
  r.closing = true → ∀ w ∈ r.waiting, w.call = .accept → w.woken = true

theorem roused_wakeAccepts (r : Receiver) : r.wakeAccepts.Roused := by
  intro _ w hw hc
  refine Decidable.byContradiction fun hn => ?_
  rw [waiting_wakeAccepts] at hw
  have hcalled := (mem_of_wake hw (Bool.not_eq_true _ ▸ hn)).2
  rw [hc] at hcalled
  cases hcalled

theorem Roused.wakeReads (h : r.Roused) (p : PeerId) : (r.wakeReads p).Roused := by
  intro hcl w hw hc
  rw [waiting_wakeReads] at hw
  obtain ⟨v,hv,rfl⟩ := List.mem_map.mp hw
  rw [show (v.woken || _) = _ from by rw [h hcl v hv hc,Bool.true_or]]

theorem Roused.shut (h : r.Roused) : r.shut.Roused := by
  have hfold : ∀ (ps : List PeerId) (t : Receiver), t.Roused →
      (ps.foldl (fun r p => (r.modify p .teardown).wakeReads p) t).Roused := by
    intro ps
    induction ps with
    | nil => exact fun _ ht => ht
    | cons p ps ih =>
      exact fun t ht => ih _ (Roused.wakeReads (r := t.modify p .teardown) ht p)
  unfold Receiver.shut
  split
  · exact h
  · exact hfold _ _ (roused_wakeAccepts _)

theorem Roused.onTick (h : r.Roused) (p : PeerId) : (r.onTick p).Roused := by
  unfold Receiver.onTick
  split
  · exact h
  · split
    · simp only
      split
      · exact Roused.wakeReads (r := { r with registry := _ }) h p
      · exact h
    · exact h

theorem Roused.poll (h : r.Roused) (k : CallId) : (r.poll k).1.Roused := by
  intro hcl w hw hc
  rw [(poll_alike r k).2] at hcl
  cases hr : Waiting.ready? r.waiting k with
  | none =>
    rw [poll_none hr] at hw
    exact h hcl w hw hc
  | some call =>
    rw [poll_waiting hr] at hw
    cases ho : (r.attempt call).1 with
    | answer result =>
      rw [ho] at hw
      exact h hcl w (List.mem_filter.mp hw).1 hc
    | wait later =>
      rw [ho] at hw
      obtain ⟨v,hv,rfl⟩ := List.mem_map.mp hw
      by_cases hk : v.id = k
      · rw [if_pos hk] at hc
        have hcall : call = .accept := (attempt_wait ho).symm.trans hc
        rw [hcall] at ho
        simp only [attempt,hcl,if_true] at ho
        cases ho
      · rw [if_neg hk] at hc ⊢
        exact h hcl v hv hc

theorem Roused.make (h : r.Roused) (m : Move) : (r.make m).1.Roused := by
  cases m with
  | retry k => exact h.poll k
  | event e =>
    by_cases he : e = .close
    · subst he
      exact h.shut
    · intro hcl
      have hc : r.closing = true := (react_alike r he).2.symm.trans hcl
      have hold := h hc
      cases e with
      | datagram a raw =>
        rw [show r.make (.event (.datagram a raw)) = (r,[]) from onDatagram_closed hc raw]
        exact hold
      | acceptOne =>
        simp only [Receiver.make,react,enter,attempt,hc,if_true,answer]
        exact hold
      | acceptAll =>
        simp only [Receiver.make,react,hc,if_true,answer]
        exact hold
      | read a room =>
        simp only [Receiver.make,react,hc,if_true,answer]
        exact hold
      | tick p => exact h.onTick p hcl
      | close => exact absurd rfl he

/-- What is always known of a receiver and the calls that wait at it. -/
structure Posted (r : Receiver) : Prop where
  sound : r.Sound
  tidy : r.registry.Tidy
  bare : r.Bare
  numbered : r.Numbered
  alert : r.Alert
  eager : r.Eager
  roused : r.Roused
  based : ∀ k p room, (k,.read p room) ∈ r.calling → r.Based p

theorem posted_start (settings : Settings) : (start settings).Posted where
  sound := sound_start settings
  tidy := tidy_start settings
  bare := bare_start settings
  numbered := numbered_start settings
  alert := alert_start settings
  eager := eager_start settings
  roused := fun h => by cases h
  based := fun _ _ _ h => by cases h

theorem Alert.make (h : r.Alert) (hs : r.Sound) (m : Move) : (r.make m).1.Alert := by
  cases m with
  | event e => exact h.react e
  | retry k => exact h.poll hs k

theorem Posted.make (h : r.Posted) (m : Move) : (r.make m).1.Posted where
  sound := h.sound.make m
  tidy := (make_change h.sound m).tidy h.tidy
  bare := h.bare.make h.sound m
  numbered := h.numbered.make m
  alert := h.alert.make h.sound m
  eager := h.eager.make h.sound m
  roused := h.roused.make m
  based := by
    intro k p room hm
    refine Based.make ?_ h.sound h.tidy h.bare m
    cases m with
    | event e =>
      rcases calling_react hm with hold | ⟨_,_,a,_,hl⟩
      · exact h.based k p room hold
      · exact based_of_readable h.sound hl
    | retry j => exact h.based k p room (calling_poll hm)

theorem Posted.play (h : r.Posted) (ms : List Move) : (r.play ms).1.Posted :=
  chain_induct h (fun _ ht m => ht.make m) ms

theorem mem_calling {e : CallId × Call} (h : e ∈ r.calling) :
    ∃ w ∈ r.waiting, w.id = e.1 ∧ w.call = e.2 := by
  obtain ⟨w,hw,rfl⟩ := List.mem_map.mp h
  exact ⟨w,hw,rfl,rfl⟩

theorem Posted.accept_rest (h : r.Posted) (ha : r.Asleep) (hk : (k,.accept) ∈ r.calling) :
    r.closing = false ∧ r.registry.pending = [] := by
  obtain ⟨w,hw,_,hc⟩ := mem_calling hk
  refine ⟨Bool.eq_false_iff.mpr fun hcl => ?_,h.eager w hw hc (ha w hw)⟩
  exact ha.not_mem (h.roused hcl w hw hc) hw

/-- Whoever still reads waits for a record in service that has nothing to read. -/
theorem Posted.read_rest (h : r.Posted) (ha : r.Asleep) {room : Nat}
    (hk : (k,.read p room) ∈ r.calling) :
    r.closing = false ∧ ∃ x, r.registry.peers[p]? = some x ∧
      r.registry.connected.get? x.addr = some p ∧ x.closed = false ∧ x.inbox.unread = [] := by
  obtain ⟨w,hw,_,hc⟩ := mem_calling hk
  obtain ⟨x,hx,hu,hopen⟩ := h.alert w hw p room hc (ha w hw)
  obtain ⟨y,hy,hbased⟩ := (h.based k p room hk).peer
  obtain rfl : x = y := Option.some.inj (hx.symm.trans hy)
  have hseat := hbased.resolve_right (by simp [hopen])
  refine ⟨Bool.eq_false_iff.mpr fun hcl => ?_,x,hx,hseat,hopen,hu⟩
  rw [(h.bare hcl).connected] at hseat
  cases hseat

theorem Posted.closed_rest (h : r.Posted) (ha : r.Asleep) (hc : r.closing = true) :
    r.waiting = [] := by
  refine List.eq_nil_iff_forall_not_mem.mpr fun w hw => ?_
  have hk : (w.id,w.call) ∈ r.calling := List.mem_map.mpr ⟨w,hw,rfl⟩
  have hopen : r.closing = false := by
    cases hcall : w.call with
    | accept => exact (h.accept_rest ha (hcall ▸ hk)).1
    | read p room => exact (h.read_rest ha (hcall ▸ hk)).1
  rw [hc] at hopen
  cases hopen

def Call.farewell : Call → Result
  | .accept => .failed .closed
  | .read _ _ => .bytes []

theorem react_finish (hs : r.Sound) {e : Event} {result : Result}
    (h : .finish k result ∈ (r.react e).2) : k = r.calls := by
  cases e with
  | datagram a raw => exact absurd h (onDatagram_finish a raw)
  | acceptOne =>
    simp only [react,enter_finished] at h
    exact (mem_finished h).1
  | acceptAll =>
    simp only [react] at h
    split at h
    · exact (Output.finish.inj (List.mem_singleton.mp h)).1
    · rcases List.mem_append.mp h with h | h
      · obtain ⟨e,_,he⟩ := List.mem_map.mp h
        cases he
      · rw [(Output.finish.inj (List.mem_singleton.mp h)).1,calls_acceptMany]
  | read a room => exact (read_answers hs h).1
  | tick p => cases h
  | close => rw [(Output.finish.inj (List.mem_singleton.mp h)).1,calls_shut]

theorem calling_react_subset (e : Event) : r.calling ⊆ (r.react e).1.calling := by
  have henter : ∀ call, r.calling ⊆ (r.enter call).1.calling := by
    intro call
    rcases calling_enter r call with h | h
    · rw [h]
      exact fun _ hm => hm
    · rw [h]
      exact List.subset_append_left _ _
  cases e with
  | datagram a raw => exact (calling_onDatagram a raw).symm ▸ fun _ hm => hm
  | acceptOne => exact henter .accept
  | acceptAll =>
    simp only [react]
    split
    · exact fun _ hm => hm
    · exact (calling_acceptMany _ r).symm ▸ fun _ hm => hm
  | read a room =>
    simp only [react]
    split
    · exact fun _ hm => hm
    · split
      · exact fun _ hm => hm
      · exact fun _ hm => hm
      · split
        · exact fun _ hm => hm
        · exact henter _
  | tick p => exact (calling_onTick r p).symm ▸ fun _ hm => hm
  | close => exact (calling_shut r).symm ▸ fun _ hm => hm

theorem mem_finished_iff {j : CallId} {call : Call} {result : Result} :
    .finish k result ∈ finished j (r.attempt call).2.1 (r.attempt call).1 ↔
      k = j ∧ (r.attempt call).1 = .answer result := by
  refine ⟨mem_finished,?_⟩
  rintro ⟨rfl,ho⟩
  rw [ho]
  simp [finished]

theorem calling_retried {j : CallId} {call : Call}
    (hr : Waiting.ready? r.waiting j = some call) :
    (r.poll j).1.calling = Waiting.retried r.calling j (r.attempt call).1 := by
  rw [calling,poll_waiting hr]
  exact Waiting.retried_settle _ _ _

theorem Numbered.call_eq (h : r.Numbered) {call other : Call} (hm : (k,call) ∈ r.calling)
    (ho : (k,other) ∈ r.calling) : call = other := by
  have hnodup : (r.calling.map (·.1)).Nodup := ids_eq r ▸ h.nodup
  exact congrArg (·.2) (List.inj_on_of_nodup_map hnodup hm ho rfl)

/-- From `r` on a receiver was closed, and it is now `t` with `os` put out since. -/
structure Dismisses (r t : Receiver) (os : List Output) : Prop where
  posted : t.Posted
  closed : t.closing = true
  calls : r.calls ≤ t.calls
  spent : ∀ k p room, (k,.read p room) ∈ r.calling →
    ∃ x, t.registry.peers[p]? = some x ∧ x.closed = true ∧ x.inbox.unread = []
  fate : ∀ e ∈ r.calling,
    Waiting.Fate t.calling (fun result => .finish e.1 result ∈ os) e e.2.farewell

theorem Dismisses.attempt {os : List Output} (h : Dismisses r t os) {e : CallId × Call}
    (he : e ∈ r.calling) (hm : e ∈ t.calling) :
    (t.attempt e.2).1 = .answer e.2.farewell := by
  obtain ⟨k,call⟩ := e
  cases call with
  | accept => simp only [Receiver.attempt,h.closed,if_true,Call.farewell]
  | read p room =>
    obtain ⟨x,hx,hcl,hu⟩ := h.spent k p room he
    obtain ⟨w,hw,_,hc⟩ := mem_calling hm
    rw [attempt_closed hx hcl (h.posted.sound.room w hw p room hc),hu,List.take_nil]
    rfl

/-- Whoever tries again at a closed receiver leaves the fate of every call as it is. -/
theorem Dismisses.fate_poll {os : List Output} (h : Dismisses r t os) {e : CallId × Call}
    (he : e ∈ r.calling) (j : CallId) : Waiting.Fate (t.poll j).1.calling
      (fun result => .finish e.1 result ∈ os ++ (t.poll j).2) e e.2.farewell := by
  cases hr : Waiting.ready? t.waiting j with
  | none =>
    rw [poll_none hr,List.append_nil]
    exact h.fate e he
  | some call =>
    have hcall := mem_calling_of_ready hr
    rw [calling_retried hr]
    refine (h.fate e he).retry hcall (fun hm hj => ?_) fun result => ?_
    · obtain rfl : e.2 = call := h.posted.numbered.call_eq hm (hj ▸ hcall)
      exact h.attempt he hm
    · rw [List.mem_append,poll_finished hr,mem_finished_iff]

theorem Dismisses.fate_react {os : List Output} (h : Dismisses r t os) {e : CallId × Call}
    (he : e ∈ r.calling) (hlt : e.1 < r.calls) (a : Event) : Waiting.Fate (t.react a).1.calling
      (fun result => .finish e.1 result ∈ os ++ (t.react a).2) e e.2.farewell := by
  have hold : e.1 ≠ t.calls := Nat.ne_of_lt (Nat.lt_of_lt_of_le hlt h.calls)
  refine (h.fate e he).keep (fun hm => calling_react_subset a hm) (fun later hm => ?_)
    fun result => ?_
  · have hid : e.1 ∈ (t.react a).1.ids := ids_eq _ ▸ List.mem_map.mpr ⟨_,hm,rfl⟩
    have hwas : e.1 ∈ t.ids := by
      rcases ids_react t a with ⟨hids,_⟩ | ⟨hids,_⟩
      · rwa [hids] at hid
      · rw [hids,List.mem_append,List.mem_singleton] at hid
        exact hid.resolve_right hold
    rw [ids_eq] at hwas
    obtain ⟨⟨_,call⟩,hcall,rfl⟩ := List.mem_map.mp hwas
    exact ⟨call,hcall⟩
  · rw [List.mem_append]
    exact or_iff_left fun hf => hold (react_finish h.posted.sound hf)

theorem calls_make (m : Move) : r.calls ≤ (r.make m).1.calls := by
  cases m with
  | retry k => exact Nat.le_of_eq (calls_poll r k).symm
  | event e =>
    rcases ids_react r e with ⟨_,h⟩ | ⟨_,h⟩
    · exact h
    · exact Nat.le_of_lt (h ▸ Nat.lt_succ_self _)

theorem Dismisses.make {os : List Output} (h : Dismisses r t os) (hr : r.Numbered) (m : Move) :
    Dismisses r (t.make m).1 (os ++ (t.make m).2) where
  posted := h.posted.make m
  closed := make_closed m h.closed
  calls := Nat.le_trans h.calls (calls_make m)
  spent := by
    intro k p room hm
    obtain ⟨x,hx,hcl,hu⟩ := h.spent k p room hm
    obtain ⟨y,hy,haged⟩ := make_aged h.posted.sound m hx
    exact ⟨y,hy,haged.closed hcl,haged.spent hcl hu⟩
  fate := by
    intro e he
    cases m with
    | event a => exact h.fate_react he (hr.lt _ (ids_eq r ▸ List.mem_map.mpr ⟨e,he,rfl⟩)) a
    | retry j => exact h.fate_poll he j

theorem Dismisses.play {os : List Output} (h : Dismisses r t os) (hr : r.Numbered)
    (ms : List Move) : Dismisses r (t.play ms).1 (os ++ (t.play ms).2) := by
  induction ms generalizing t os with
  | nil =>
    rw [show t.play [] = (t,[]) from rfl,List.append_nil]
    exact h
  | cons m ms ih =>
    rw [Receiver.play,chain_cons,← List.append_assoc]
    exact ih (h.make hr m)

/-- When a receiver is closed while nobody is awake, whoever reads has read everything. -/
theorem Posted.dismisses (h : r.Posted) (ha : r.Asleep) :
    Dismisses r (r.make (.event .close)).1 (r.make (.event .close)).2 where
  posted := h.make _
  closed := shut_closing r
  calls := calls_make _
  spent := by
    intro k p room hm
    obtain ⟨hopen,x,hx,hseat,_,hu⟩ := h.read_rest ha hm
    obtain ⟨y,hy,hcl,hi⟩ := Registry.closed_shut hx (.inl hseat)
    refine ⟨y,?_,hcl,by rw [hi,hu]⟩
    exact (congrArg (fun g : Registry => g.peers[p]?) (shut_registry hopen)).trans hy
  fate := by
    intro e he
    have hlt := h.numbered.lt _ (ids_eq r ▸ List.mem_map.mpr ⟨e,he,rfl⟩)
    refine .inl ⟨calling_react_subset .close he,fun result hf => ?_⟩
    exact Nat.ne_of_lt hlt (react_finish h.sound hf)

/-- Of the calls that waited in `r` none waits any more, and each was given its answer for the end
and no other. -/
structure Dismissed (r : Receiver) (t : Receiver × List Output) : Prop where
  nobody : t.1.waiting = []
  answers : ∀ k call, (k,call) ∈ r.calling →
    ∀ result, .finish k result ∈ t.2 ↔ result = call.farewell

theorem Dismisses.dismissed {os : List Output} (h : Dismisses r t os) (ha : t.Asleep) :
    r.Dismissed (t,os) := by
  have hnobody := h.posted.closed_rest ha h.closed
  refine ⟨hnobody,fun k call hm => ((h.fate _ hm).over fun hwaits => ?_).2⟩
  rw [calling,hnobody] at hwaits
  cases hwaits

/-- What every call waits for that still waits. -/
structure Vigil (r : Receiver) : Prop where
  accepts : ∀ k, (k,.accept) ∈ r.calling → r.closing = false ∧ r.registry.pending = []
  reads : ∀ k p room, (k,.read p room) ∈ r.calling →
    r.closing = false ∧ ∃ x, r.registry.peers[p]? = some x ∧
      r.registry.connected.get? x.addr = some p ∧ x.closed = false ∧ x.inbox.unread = []
  closed : r.closing = true → r.waiting = []
  close : ∀ ms, (r.play (.event .close :: ms)).1.Asleep →
    r.Dismissed (r.play (.event .close :: ms))
  shut : r.Dismissed (r.step .close)

theorem Posted.vigil (h : r.Posted) (ha : r.Asleep) : r.Vigil := by
  have hclose : ∀ ms, (r.play (.event .close :: ms)).1.Asleep →
      r.Dismissed (r.play (.event .close :: ms)) :=
    fun ms hms => ((h.dismisses ha).play h.numbered ms).dismissed hms
  exact {
    accepts := fun k hk => h.accept_rest ha hk
    reads := fun k p room hk => h.read_rest ha hk
    closed := h.closed_rest ha
    close := hclose
    shut := by
      have hstep : r.step .close = r.play (.event .close ::
          (Waiting.ready (r.react .close).1.waiting).map .retry) := by
        rw [Receiver.play,chain_cons,chain_map]
        rfl
      rw [hstep]
      exact hclose _ (hstep ▸ asleep_step r .close) }

/-- No caller sleeps through what it waits for: neither between the events of a run, nor whenever
nobody is awake while those who were woken try again in any order. -/
theorem vigil_along_run (settings : Settings) :
    (∀ es, ((start settings).run es).1.Asleep ∧ ((start settings).run es).1.Vigil) ∧
      ∀ ms, (after settings ms).Asleep → (after settings ms).Vigil := by
  have hplay : ∀ ms, (after settings ms).Asleep → (after settings ms).Vigil :=
    fun ms => ((posted_start settings).play ms).vigil
  refine ⟨fun es => ⟨asleep_run settings es,?_⟩,hplay⟩
  obtain ⟨ms,hms⟩ := run_eq_play (r := start settings) es
  have ha := asleep_run settings es
  rw [hms] at ha ⊢
  exact hplay ms ha

/-- Two reads and a call to accept wait; one byte comes, and the later reader is the first to try
again. -/
def overtaken (a : Address) : List Move :=
  [.event (.datagram a (Frame.encode ⟨.rcon,0,0,[]⟩)),.event .acceptOne,.event (.read a 1),
    .event (.read a 4),.event .acceptOne,.event (.datagram a (Frame.encode ⟨.data,1,0,[97]⟩)),
    .retry 2,.retry 1]

theorem vigil_along_run_overtaken :
    let a : Address := ⟨.localhost,0,4001⟩
    let settings : Settings := ⟨64,.ofMillis 1500,.ofMillis 500,1,true⟩
    (after settings (overtaken a)).Asleep ∧ (after settings (overtaken a)).Vigil ∧
      (after settings (overtaken a)).calling = [(1,.read 0 1),(3,.accept)] ∧
      ((after settings (overtaken a)).step .close).2 =
        [.finish 4 .shut,.finish 1 (.bytes []),.finish 3 (.failed .closed)] := by
  intro a settings
  have ha : (after settings (overtaken a)).Asleep := by
    unfold Asleep
    decide +kernel
  exact ⟨ha,(vigil_along_run settings).2 _ ha,by decide +kernel,by decide +kernel⟩

end Receiver
end ReliableTransport
