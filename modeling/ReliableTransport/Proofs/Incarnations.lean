import ReliableTransport.Proofs.Delivery

/-! Connections from one address, one after the other. A record outlives the connection it was made
for, and a newer connection whose address has one that is still open goes on with it: the receiver
answers what the record has taken before, and the sender takes that for its own. So a newer
connection loses as many of its first payloads as the record had taken. -/
namespace ReliableTransport

open Connection (payloads pushes pushedBy Within requestFrame)
open Registry (takings)

namespace Network

variable {near far : Address} {c : ConnRef} {n m : Network}

/-- What was under way is lost, and a connection is made. -/
def reopened (n : Network) (near far : Address) (now : Nat) : Network :=
  ({ n with log := [] } : Network).send (.connect near far none now)

theorem of_settled_send {e : Sender.Event} {k : CallId} {result : Sender.Result}
    (h : .settled k result ∈ (n.send e).log) :
    .settled k result ∈ n.log ∨ k = n.sender.calls := by
  rcases List.mem_append.mp h with h | h
  · exact .inl h
  · rcases List.mem_append.mp h with h | h
    · cases e with
      | send id data =>
        obtain ⟨x,_,he⟩ := Option.map_eq_some_iff.mp (Option.mem_toList.mp h)
        cases he
      | _ => cases h
    · rcases List.mem_append.mp h with h | h
      · exact absurd h (Pledges.settled_ofPushes _ _ _ _ _ _)
      · exact .inr (Sender.react_finish (Pledges.settled_ofOutput h))

theorem of_settled_resume {j k : CallId} {result : Sender.Result}
    (h : .settled k result ∈ (n.resume j).log) :
    .settled k result ∈ n.log ∨ ∃ e ∈ n.sender.held, e.1 = k := by
  rcases List.mem_append.mp h with h | h
  · exact .inl h
  · rcases List.mem_append.mp h with h | h
    · exact absurd h (Pledges.settled_ofPushes _ _ _ _ _ _)
    · have h := Pledges.settled_ofOutput h
      cases hr : Waiting.ready? n.sender.waiting j with
      | none =>
        rw [Sender.poll_none hr] at h
        cases h
      | some call =>
        rw [Sender.poll_finished hr] at h
        rw [(Sender.of_finished h).1]
        exact .inr ⟨_,Sender.mem_held_of_ready hr,rfl⟩

theorem of_asked_send {e : Sender.Event} {k : CallId} {d : ConnRef} {data : Bytes}
    (h : .asked k d data ∈ (n.send e).log) : .asked k d data ∈ n.log ∨
      (k = n.sender.calls ∧ ∃ id x, n.sender.established id = some (d,x)) := by
  rcases List.mem_append.mp h with h | h
  · exact .inl h
  · rcases List.mem_append.mp h with h | h
    · cases e with
      | send id given =>
        obtain ⟨e,he,hn⟩ := Option.map_eq_some_iff.mp (Option.mem_toList.mp h)
        obtain ⟨rfl,rfl,_⟩ := Note.asked.inj hn
        exact .inr ⟨rfl,id,e.2,he⟩
      | _ => cases h
    · rcases List.mem_append.mp h with h | h
      · exact absurd h (Pledges.asked_ofPushes _ _ _ _ _ _ _)
      · exact absurd h (Pledges.asked_ofOutput _ _ _ _)

theorem of_asked_resume {j k : CallId} {d : ConnRef} {data : Bytes}
    (h : .asked k d data ∈ (n.resume j).log) : .asked k d data ∈ n.log := by
  rcases List.mem_append.mp h with h | h
  · exact h
  · rcases List.mem_append.mp h with h | h
    · exact absurd h (Pledges.asked_ofPushes _ _ _ _ _ _ _)
    · exact absurd h (Pledges.asked_ofOutput _ _ _ _)

/-- The connection is torn down and no call is about it. -/
structure Over (c : ConnRef) (n : Network) : Prop where
  closed : ∃ x, n.sender.conns[c]? = some x ∧ x.closed = true
  left : ∀ e ∈ n.sender.held, e.2.conn ≠ c
  asked : ∀ k data, .asked k c data ∈ n.log →
    k < n.sender.calls ∧ ∀ e ∈ n.sender.held, e.1 ≠ k

structure Still (c : ConnRef) (n m : Network) : Prop where
  said : said c m.log = said c n.log
  asked : ∀ k data, .asked k c data ∈ m.log → .asked k c data ∈ n.log
  settled : ∀ k data result, .asked k c data ∈ n.log → .settled k result ∈ m.log →
    .settled k result ∈ n.log

theorem Over.stir (h : Over c n) (hs : n.sender.Sound) {hears : ConnRef → Frame → Prop}
    {t : Sender} {notes : List Note}
    (ht : Stirs (fun d => ∀ e ∈ n.sender.held, e.2.conn ≠ d) hears n.sender t notes) :
    (∃ y, t.conns[c]? = some y ∧ y.closed = true) ∧ (∀ e ∈ t.held, e.2.conn ≠ c) ∧
      said c (n.log ++ notes) = said c n.log := by
  obtain ⟨x,hx,hc⟩ := h.closed
  obtain ⟨y,hy,hxy⟩ := ht.stays c x hx
  obtain ⟨hheld,hnotes⟩ := ht.quiet hs h.left hx hc h.left
  exact ⟨⟨y,hy,hxy.closed hc⟩,hheld,by rw [said_append,hnotes,List.append_nil]⟩

theorem Over.send (h : Over c n) (hs : n.sender.Sound) (e : Sender.Event) :
    Over c (n.send e) ∧ Still c n (n.send e) := by
  obtain ⟨hclosed,hleft,hsaid⟩ := h.stir hs (stirs_react hs _ e)
  have hasked : ∀ k data, .asked k c data ∈ (n.send e).log → .asked k c data ∈ n.log := by
    intro k data ha
    rcases of_asked_send ha with ha | ⟨_,id,y,hy⟩
    · exact ha
    · obtain ⟨x,hx,hc⟩ := h.closed
      exact absurd rfl (ne_of_established hs hy hx hc)
  refine ⟨⟨hclosed,hleft,fun k data ha => ?_⟩,hsaid,hasked,fun k data result ha hr => ?_⟩
  · obtain ⟨hk,hne⟩ := h.asked k data (hasked k data ha)
    refine ⟨Nat.lt_of_lt_of_le hk (Sender.calls_le_react _ _),fun w hw => ?_⟩
    rcases Sender.of_react_held hw with hw | ⟨hid,_⟩
    · exact hne w hw
    · rw [hid]
      exact Nat.ne_of_gt hk
  · rcases of_settled_send hr with hr | rfl
    · exact hr
    · exact absurd (h.asked _ data ha).1 (Nat.lt_irrefl _)

theorem Over.resume (h : Over c n) (hs : n.sender.Sound) (j : CallId) :
    Over c (n.resume j) ∧ Still c n (n.resume j) := by
  have ht : Stirs (fun d => ∀ e ∈ n.sender.held, e.2.conn ≠ d) (fun _ _ => False) n.sender
      (n.sender.poll j).1 _ := stirs_poll hs _ j fun e he hw => absurd rfl (hw e he)
  obtain ⟨hclosed,hleft,hsaid⟩ := h.stir hs ht
  refine ⟨⟨hclosed,hleft,fun k data ha => ?_⟩,hsaid,fun k data => of_asked_resume,
    fun k data result ha hr => ?_⟩
  · obtain ⟨hk,hne⟩ := h.asked k data (of_asked_resume ha)
    have hcalls : (n.resume j).sender.calls = n.sender.calls := Sender.poll_calls _ _
    rw [hcalls]
    refine ⟨hk,fun w hw => ?_⟩
    cases hr : Waiting.ready? n.sender.waiting j with
    | none =>
      have hsame : (n.resume j).sender = n.sender := by
        simp only [Network.resume,Sender.poll_none hr]
      rw [hsame] at hw
      exact hne w hw
    | some call =>
      rcases Sender.of_poll_held hr hw with ⟨hw,_⟩ | ⟨hid,_⟩
      · exact hne w hw
      · rw [hid]
        exact hne _ (Sender.mem_held_of_ready hr)
  · rcases of_settled_resume hr with hr | ⟨e,he,rfl⟩
    · exact hr
    · exact absurd rfl ((h.asked _ data ha).2 e he)

theorem Over.receiver (h : Over c n) (r : Receiver) (ds : List Registry.Deed) :
    Over c ⟨n.sender,r,n.log ++ ds.map .registry⟩ ∧
      Still c n ⟨n.sender,r,n.log ++ ds.map .registry⟩ := by
  have hasked : ∀ k data, .asked k c data ∈ n.log ++ ds.map Note.registry →
      .asked k c data ∈ n.log := by
    intro k data ha
    simpa using ha
  refine ⟨⟨h.closed,h.left,fun k data ha => h.asked k data (hasked k data ha)⟩,?_,hasked,?_⟩
  · rw [said_append,said_registry,List.append_nil]
  · intro k data result _ hr
    simpa using hr

theorem Still.refl (c : ConnRef) (n : Network) : Still c n n :=
  ⟨rfl,fun _ _ h => h,fun _ _ _ _ h => h⟩

/-- A connection that is over stays so, and nothing happens to it any more. -/
theorem Over.step (h : Over c n) (hs : n.Sound) (near far : Address) (move : Move) :
    Over c (n.step near far move) ∧ Still c n (n.step near far move) := by
  have hm := moved near far n move
  generalize n.step near far move = m at hm ⊢
  cases hm with
  | same => exact ⟨h,.refl c n⟩
  | send e => exact h.send hs.1 e
  | resume k => exact h.resume hs.1 k
  | receive e => exact h.receiver _ _
  | recover k => exact h.receiver _ _
  | restart settings =>
    obtain ⟨hclosed,hleft,_⟩ := h.stir hs.1 (stirs_restart n.sender _ (fun _ _ => False) settings)
    refine ⟨⟨hclosed,hleft,fun k data ha => ⟨(h.asked k data ha).1,?_⟩⟩,
      rfl,fun _ _ h => h,fun _ _ _ _ h => h⟩
    intro e he
    cases he

/-- A connection is made at an address only when all others there are over. -/
theorem vacant_of_new (near far : Address) (n : Network) (move : Move) {d : ConnRef}
    {x : Connection} (hd : n.sender.conns[d]? = none)
    (hx : (n.step near far move).sender.conns[d]? = some x) : n.sender.Vacant x.bound := by
  have hge := List.getElem?_eq_none_iff.mp hd
  have hlt := (List.getElem?_eq_some_iff.mp hx).1
  have hsame : (n.step near far move).sender.conns.length = n.sender.conns.length → False := by
    intro hlen
    omega
  have hhear : ∀ (e : Sender.Event), (∃ d source raw now, e = .datagram d source raw now) →
      (n.send e).sender.conns.length = n.sender.conns.length := by
    rintro e ⟨d',source,raw,now,rfl⟩
    exact Sender.onDatagram_length _ _ _ _ _
  cases move with
  | sender e =>
    simp only [Network.step] at hx hsame
    split at hx
    · rename_i ha
      rw [if_pos ha] at hsame
      rcases n.sender.react_length e with hlen | ⟨bound,remote,now,rfl⟩
      · exact (hsame hlen).elim
      · simp only [Network.send,Sender.react,Sender.onConnect_eq] at hx
        rw [List.getElem?_append_right hge] at hx
        obtain rfl := List.mem_singleton.mp (List.mem_of_getElem? hx)
        exact ha
    · rw [hd] at hx
      cases hx
  | resume k => exact (hsame (Sender.poll_length _ _)).elim
  | receiver e =>
    simp only [Network.step] at hx
    split at hx
    · rw [show (n.receive e).sender = n.sender from rfl,hd] at hx
      cases hx
    · rw [hd] at hx
      cases hx
  | recover k => exact (hsame rfl).elim
  | forth place flip =>
    rcases step_forth near far n place flip with he | ⟨d',frame,y,_,_,_,he⟩
    · exact (hsame (by rw [he])).elim
    · exact (hsame (by rw [he]; rfl)).elim
  | back place d' flip now =>
    rcases step_back near far n place d' flip now with he | ⟨frame,y,_,_,he⟩
    · exact (hsame (by rw [he])).elim
    · exact (hsame (by rw [he]; exact hhear _ ⟨_,_,_,_,rfl⟩)).elim
  | restart settings => exact (hsame (List.length_map ..)).elim

/-- The data of a call on connection `c` has reached a record that stood open at the beginning or
was made since: its pieces are among the first payloads pushed, and of these the record has taken
all since but as many as it had taken before. -/
def Landed (near : Address) (r₀ : Registry) (c : ConnRef) (k : CallId) (data : Bytes)
    (m : Network) : Prop :=
  ∃ (p : PeerId) (x : Peer) (l : Nat), m.receiver.registry.peers[p]? = some x ∧ x.addr = near ∧
    Link.Counts r₀ p ∧ pushedBy k (said c m.log) = chunks Frame.maxPayload data ∧
    Within k (said c m.log) l ∧
    ((m.pushed c).take l).drop (Link.base r₀ p).toNat <+: m.taken p

/-- As long as the connection is the newest of its address, all data delivered has landed. -/
theorem Ties.landed {shutting : Prop} {r₀ : Registry} (h : Ties near far c shutting r₀ m)
    (hp : Pledged c m) {k : CallId} {data : Bytes} (hs : .settled k .delivered ∈ m.log)
    (hask : .asked k c data ∈ m.log) (hdata : data ≠ []) : Landed near r₀ c k data m := by
  obtain ⟨x,hx,hpos,hall,hin⟩ := hp.point_of_delivered hs hask hdata
  obtain ⟨p,y,hy,ha,hcounts,hle⟩ := h.link.point x hx hpos
  have ht := h.link.tally p y hy ha
  cases ht with
  | spent _ hn => omega
  | good hstart _ htaken _ =>
    refine ⟨p,y,y.taken.toNat,hy,ha,hcounts,hall,hin.mono (by omega),?_⟩
    have he : m.taken p = ((m.pushed c).take y.taken.toNat).drop (Link.base r₀ p).toNat := htaken
    exact ⟨[],by rw [he,List.append_nil]⟩

theorem Landed.step {r₀ : Registry} {k : CallId} {data : Bytes} (h : Landed near r₀ c k data n)
    (hs : n.Sound) (move : Move) (hstill : Still c n (n.step near far move)) :
    Landed near r₀ c k data (n.step near far move) := by
  obtain ⟨p,x,l,hx,ha,hcounts,hall,hin,hpre⟩ := h
  obtain ⟨y,hy,hxy⟩ := hs.record near far move hx
  refine ⟨p,y,l,hy,by rw [hxy.addr,ha],hcounts,?_,?_,?_⟩
  · rw [hstill.said,hall]
  · rw [hstill.said]
    exact hin
  · obtain ⟨notes,hnotes⟩ := (grows_step near far n move).log
    have hpushed : (n.step near far move).pushed c = n.pushed c := by
      rw [pushed,hstill.said]
      rfl
    rw [hpushed]
    refine hpre.trans ?_
    rw [taken,taken,← hnotes,done_append,Registry.takings_append]
    exact List.prefix_append _ _

/-- Whatever happens after a connection was made: it is still the newest of its address, or it is
over and all data delivered on it has landed. -/
theorem landed_or_newest {r₀ : Registry} (hn : Ties near far c True r₀ n) (hpn : Pledged c n)
    (hc : ∃ x, n.sender.conns[c]? = some x) (hsole : Sole near far c True n n)
    (hr : Reaches near far n m) (hfew : (m.pushed c).length < Signed.fragmentLimit) :
    Sole near far c True n m ∨ (Over c m ∧ ∀ k data, .settled k .delivered ∈ m.log →
      .asked k c data ∈ m.log → data ≠ [] → Landed near r₀ c k data m) := by
  induction hr with
  | refl => exact .inl hsole
  | @step l hl move ih =>
    have hg := grows_step near far l move
    have hls : l.Sound := hl.sound ⟨hn.sender,hn.receiver⟩
    have hstep : (Over c l ∧ ∀ k data, .settled k .delivered ∈ l.log → .asked k c data ∈ l.log →
        data ≠ [] → Landed near r₀ c k data l) → Over c (l.step near far move) ∧
        ∀ k data, .settled k .delivered ∈ (l.step near far move).log →
          .asked k c data ∈ (l.step near far move).log → data ≠ [] →
          Landed near r₀ c k data (l.step near far move) := by
      rintro ⟨hover,hlanded⟩
      obtain ⟨hover',hstill⟩ := hover.step hls near far move
      refine ⟨hover',fun k data hs hask hdata => ?_⟩
      have hask := hstill.asked k data hask
      exact (hlanded k data (hstill.settled k data _ hask hs) hask hdata).step hls move hstill
    rcases ih (Nat.lt_of_le_of_lt (length_le_of_earlier hg.log c) hfew) with hl' | hover
    · by_cases hnew : ∃ (d : ConnRef) (x : Connection),
          (l.step near far move).sender.conns[d]? = some x ∧ x.bound = near ∧
            l.sender.conns[d]? = none ∧ d ≠ c
      · obtain ⟨d,x,hx,hb,hd,_⟩ := hnew
        have hvacant := vacant_of_new near far l move hd hx
        rw [hb] at hvacant
        have ht := hn.reach hl hl'
        have hp := hpn.reach hl hn hl'
        obtain ⟨w,hw⟩ := hc
        obtain ⟨y,hy,_⟩ := hl.grows.stays c w hw
        obtain ⟨hclosed,hleft⟩ := Sender.vacant_iff.mp hvacant c y hy (hl'.ends y hy).1
        refine .inr (hstep ⟨⟨⟨y,hy,hclosed⟩,hleft,fun k data ha => ⟨hp.asked k c data ha,?_⟩⟩,?_⟩)
        · rintro e he rfl
          exact hleft e he (hp.about e he c data ha)
        · intro k data hs hask hdata
          exact ht.landed hp hs hask hdata
      · refine .inl ⟨fun d x hx hb hd => ?_,fun x hx => ?_,hfew,fun _ => trivial⟩
        · cases hd' : l.sender.conns[d]? with
          | none =>
            by_cases hdc : d = c
            · exact hdc
            · exact absurd ⟨d,x,hx,hb,hd',hdc⟩ hnew
          | some y =>
            obtain ⟨z,hz,hyz⟩ := hg.stays d y hd'
            rw [hx] at hz
            obtain rfl := Option.some.inj hz
            exact hl'.new d y hd' (by rw [← hyz.bound,hb]) hd
        · obtain ⟨w,hw⟩ := hc
          obtain ⟨y,hy,_⟩ := hl.grows.stays c w hw
          obtain ⟨z,hz,hyz⟩ := hg.stays c y hy
          rw [hx] at hz
          obtain rfl := Option.some.inj hz
          obtain ⟨hb,hrem⟩ := hl'.ends y hy
          exact ⟨by rw [hyz.bound,hb],by rw [hyz.remote,hrem]⟩
    · exact .inr (hstep hover)

theorem reopened_conns (n : Network) (near far : Address) (now : Nat) :
    (n.reopened near far now).sender.conns = n.sender.conns ++
      [.start n.sender.table.allocate.1 near far n.sender.settings.threshold now] := by
  simp only [reopened,Network.send,Sender.react,Sender.onConnect_eq]

/-- When the connection is made it is the only one of its address that is open, and nothing is known
of it. -/
theorem reopened_begins (hn : n.Sound) (hv : n.sender.Vacant near)
    (hc : c = n.sender.conns.length) (now : Nat)
    (hfew : ((n.reopened near far now).pushed c).length < Signed.fragmentLimit) :
    Ties near far c True n.receiver.registry (n.reopened near far now) ∧
      Pledged c (n.reopened near far now) ∧
      (∃ x, (n.reopened near far now).sender.conns[c]? = some x) ∧
      Sole near far c True (n.reopened near far now) (n.reopened near far now) := by
  have hnone : n.sender.conns[c]? = none :=
    List.getElem?_eq_none_iff.mpr (Nat.le_of_eq hc.symm)
  have hlast : (n.reopened near far now).sender.conns[c]? =
      some (.start n.sender.table.allocate.1 near far n.sender.settings.threshold now) := by
    rw [reopened_conns,hc,List.getElem?_concat_length]
  have hends : ∀ x, (n.reopened near far now).sender.conns[c]? = some x →
      x.bound = near ∧ x.remote = far := by
    intro x hx
    rw [hlast] at hx
    obtain rfl := Option.some.inj hx
    exact ⟨rfl,rfl⟩
  have hstep : Reaches near far { n with log := [] } (n.reopened near far now) := by
    have hs : ({ n with log := [] } : Network).step near far (.sender (.connect near far none now)) =
        n.reopened near far now := if_pos hv
    have hr : Reaches near far { n with log := [] } _ :=
      Reaches.refl.step (.sender (.connect near far none now))
    rw [hs] at hr
    exact hr
  have hsole : Sole near far c True { n with log := [] } (n.reopened near far now) := {
    new := by
      intro d x hx _ hd
      have hge : n.sender.conns.length ≤ d := List.getElem?_eq_none_iff.mp hd
      have hlt := (List.getElem?_eq_some_iff.mp hx).1
      rw [reopened_conns,List.length_append,List.length_singleton] at hlt
      rw [hc]
      exact Nat.le_antisymm (Nat.le_of_lt_succ hlt) hge
    ends := hends
    few := hfew
    shut := fun _ => trivial }
  have hbegin : Sound { n with log := [] } := hn
  have ht : Ties near far c True n.receiver.registry { n with log := [] } :=
    Ties.begin hbegin rfl hnone hv
  refine ⟨ht.reach hstep hsole,(Pledged.begin hbegin rfl hnone).reach hstep ht hsole,⟨_,hlast⟩,?_⟩
  refine ⟨fun d x hx _ hd => ?_,hends,hfew,fun _ => trivial⟩
  rw [hx] at hd
  cases hd

theorem reopened_landed (hn : n.Sound) (hv : n.sender.Vacant near)
    (hc : c = n.sender.conns.length) {now : Nat} (hr : Reaches near far (n.reopened near far now) m)
    (hfew : (m.pushed c).length < Signed.fragmentLimit) {k : CallId} {data : Bytes}
    (hs : .settled k .delivered ∈ m.log) (hask : .asked k c data ∈ m.log) (hdata : data ≠ []) :
    Landed near n.receiver.registry c k data m := by
  have hlt : ((n.reopened near far now).pushed c).length < Signed.fragmentLimit :=
    Nat.lt_of_le_of_lt (length_le_of_earlier hr.grows.log c) hfew
  obtain ⟨ht,hp,hmade,hsole⟩ := reopened_begins hn hv hc now hlt
  rcases landed_or_newest ht hp hmade hsole hr hfew with hnewest | ⟨_,hlanded⟩
  · exact (ht.reach hr hnewest).landed (hp.reach hr ht hnewest) hs hask hdata
  · exact hlanded k data hs hask hdata

/-- Since a connection was reopened a record has taken its payloads in order, but not as many of the
first ones as it had taken before. -/
theorem Ties.taken_since {shutting : Prop} {r₀ : Registry} (h : Ties near far c shutting r₀ m)
    {p : PeerId} {x : Peer} (hx : m.receiver.registry.peers[p]? = some x) (ha : x.addr = near)
    (hp : 0 ≤ Link.base r₀ p) :
    ∃ l : Nat, m.taken p = ((m.pushed c).take l).drop (Link.base r₀ p).toNat := by
  have ht := h.link.tally p x hx ha
  cases ht with
  | spent hs _ => omega
  | good _ _ htaken _ => exact ⟨x.taken.toNat,htaken⟩

/-- A connection made when all others of its address are over, with nothing under way any more. All
data it delivers lands in a record of the address that stood open then or was made since: the record
has taken each of its payloads since then, except as many of the first ones as it had taken before.
If that was none, all of the data was taken; and as long as no newer connection is made, no record
takes the payloads excepted. -/
theorem reopened_delivery {ss : Sender.Settings} {rs : Receiver.Settings} {now : Nat}
    (hn : Reaches near far (start ss rs) n) (hv : n.sender.Vacant near)
    (hc : c = n.sender.conns.length) (hr : Reaches near far (n.reopened near far now) m)
    (hfew : (m.pushed c).length < Signed.fragmentLimit) {k : CallId} {data : Bytes}
    (hs : .settled k .delivered ∈ m.log) (hask : .asked k c data ∈ m.log) (hdata : data ≠ []) :
    (∃ (p : PeerId) (x : Peer) (l : Nat), m.receiver.registry.peers[p]? = some x ∧
      x.addr = near ∧ Link.Counts n.receiver.registry p ∧
      pushedBy k (said c m.log) = chunks Frame.maxPayload data ∧ Within k (said c m.log) l ∧
      ((m.pushed c).take l).drop (Link.base n.receiver.registry p).toNat <+: m.taken p ∧
      (Link.base n.receiver.registry p ≤ 0 →
        (chunks Frame.maxPayload data).Sublist (m.taken p))) ∧
    ((∀ (d : ConnRef) x, m.sender.conns[d]? = some x → x.bound = near → d ≤ c) →
      ∀ (p : PeerId) (x : Peer), m.receiver.registry.peers[p]? = some x → x.addr = near →
        0 ≤ Link.base n.receiver.registry p →
        ∃ l : Nat, m.taken p =
          ((m.pushed c).take l).drop (Link.base n.receiver.registry p).toNat) := by
  have hsound := hn.sound (sound_start ss rs)
  constructor
  · obtain ⟨p,x,l,hx,ha,hcounts,hall,hin,hpre⟩ :=
      reopened_landed hsound hv hc hr hfew hs hask hdata
    refine ⟨p,x,l,hx,ha,hcounts,hall,hin,hpre,fun hbase => ?_⟩
    have hzero : (Link.base n.receiver.registry p).toNat = 0 := by omega
    rw [hzero,List.drop_zero] at hpre
    rw [← hall]
    exact (sublist_of_within hin).trans hpre.sublist
  · intro hnewest p x hx ha hbase
    have hlt : ((n.reopened near far now).pushed c).length < Signed.fragmentLimit :=
      Nat.lt_of_le_of_lt (length_le_of_earlier hr.grows.log c) hfew
    obtain ⟨ht,_,⟨y,hy⟩,hsole⟩ := reopened_begins hsound hv hc now hlt
    obtain ⟨z,hz,hyz⟩ := hr.grows.stays c y hy
    have hm : Sole near far c True (n.reopened near far now) m := {
      new := by
        intro d w hw hb hd
        have hge := List.getElem?_eq_none_iff.mp hd
        have hlater := (List.getElem?_eq_some_iff.mp hy).1
        exact Nat.le_antisymm (hnewest d w hw hb) (Nat.le_trans (Nat.le_of_lt hlater) hge)
      ends := by
        intro w hw
        rw [hz] at hw
        obtain rfl := Option.some.inj hw
        obtain ⟨hb,hrem⟩ := hsole.ends y hy
        exact ⟨by rw [hyz.bound,hb],by rw [hyz.remote,hrem]⟩
      few := hfew
      shut := fun _ => trivial }
    exact (ht.reach hr hm).taken_since hx ha hbase

def afterGoodbye : Network := usual.run here there (handshake ++
  [.sender (.send 1 [97]),.sender (.wake 0 2),.forth 6 none,.back 9 0 none 3,.resume 1,
    .sender (.disconnect 1),.forth 11 none,.sender (.tick 0),.receiver (.tick 0)])

def afterReturn : Network := (afterGoodbye.reopened here there 6).run here there
  [.forth 0 none,.receiver .acceptOne,.back 1 1 none 7,.resume 3,.sender (.send 2 [98]),
    .sender (.wake 1 8),.forth 6 none,.back 9 1 none 9,.resume 4]

theorem reopened_delivery_of_byte :
    afterGoodbye.sender.Vacant here ∧ 1 = afterGoodbye.sender.conns.length ∧
      (afterReturn.pushed 1).length < Signed.fragmentLimit ∧
      .settled 4 .delivered ∈ afterReturn.log ∧ .asked 4 1 [98] ∈ afterReturn.log ∧
      ∃ (p : PeerId) (x : Peer), afterReturn.receiver.registry.peers[p]? = some x ∧
        x.addr = here ∧ Link.Counts afterGoodbye.receiver.registry p ∧
        (Link.base afterGoodbye.receiver.registry p ≤ 0 →
          (chunks Frame.maxPayload [98]).Sublist (afterReturn.taken p)) := by
  have hn : Reaches here there usual afterGoodbye := reaches_run here there usual _
  have hr : Reaches here there (afterGoodbye.reopened here there 6) afterReturn :=
    reaches_run here there _ _
  have hv : afterGoodbye.sender.Vacant here := by decide +kernel
  have hc : 1 = afterGoodbye.sender.conns.length := by decide +kernel
  have hfew : (afterReturn.pushed 1).length < Signed.fragmentLimit := by decide +kernel
  have hs : .settled 4 .delivered ∈ afterReturn.log := by decide +kernel
  have hask : .asked 4 1 [98] ∈ afterReturn.log := by decide +kernel
  refine ⟨hv,hc,hfew,hs,hask,?_⟩
  obtain ⟨⟨p,x,_,hx,ha,hcounts,_,_,_,hall⟩,_⟩ :=
    reopened_delivery hn hv hc hr hfew hs hask (by decide)
  exact ⟨p,x,hx,ha,hcounts,hall⟩

/-- A connection has sent a byte, and its sender is gone before it hears of it. -/
def afterCrash : Network := usual.run here there (handshake ++
  [.sender (.send 1 [97]),.sender (.wake 0 2),.forth 6 none,.restart usual.sender.settings])

/-- A newer connection finds the record open, and is told of a byte of its own that it was taken. -/
def afterMistake : Network := (afterCrash.reopened here there 0).run here there
  [.forth 0 none,.back 1 1 none 1,.resume 2,.sender (.send 1 [98]),.sender (.wake 1 2),
    .forth 6 none,.back 8 1 none 3,.resume 3]

/-- Data that a newer connection delivers need not have been taken by any record since it was made,
even when nothing older was under way. -/
theorem reopened_loses :
    ¬ ∀ (n m : Network) (k : CallId) (data : Bytes), Reaches here there usual n →
      n.sender.Vacant here → Reaches here there (n.reopened here there 0) m →
      .settled k .delivered ∈ m.log → .asked k n.sender.conns.length data ∈ m.log → data ≠ [] →
      ∃ p : PeerId, (chunks Frame.maxPayload data).Sublist (m.taken p) := by
  intro h
  have hv : afterCrash.sender.Vacant here := by decide +kernel
  have hs : .settled 3 .delivered ∈ afterMistake.log := by decide +kernel
  have hask : .asked 3 afterCrash.sender.conns.length [98] ∈ afterMistake.log := by decide +kernel
  obtain ⟨p,hp⟩ := h afterCrash afterMistake 3 [98] (reaches_run here there usual _) hv
    (reaches_run here there _ _) hs hask (by decide)
  have hdone : done afterMistake.log =
      [.sent here ⟨.acon,1,7259,[]⟩,.sent here ⟨.adat,1,7259,[]⟩] := by
    decide +kernel
  have hempty : afterMistake.taken p = [] := by
    rw [taken,hdone]
    rfl
  rw [hempty] at hp
  have hchunks : chunks Frame.maxPayload [98] ≠ [] := by decide
  exact hchunks (List.sublist_nil.mp hp)

def afterEcho : Network := (afterGoodbye.send (.connect here there none 6)).run here there
  [.forth 14 none,.receiver .acceptOne,.back 15 1 none 7,.resume 3,.sender (.send 2 [98]),
    .sender (.wake 1 8),.back 9 1 none 9,.resume 4]

/-- Nor need it have been taken if no record was open, but something older was under way. -/
theorem echo_loses :
    ¬ ∀ (n m : Network) (k : CallId) (data : Bytes), Reaches here there usual n →
      n.sender.Vacant here → n.receiver.registry.connected.get? here = none →
      Reaches here there (n.send (.connect here there none 6)) m →
      .settled k .delivered ∈ m.log → .asked k n.sender.conns.length data ∈ m.log → data ≠ [] →
      ∃ p : PeerId,
        (chunks Frame.maxPayload data).Sublist (takings p (done (m.log.drop n.log.length))) := by
  intro h
  have hv : afterGoodbye.sender.Vacant here := by decide +kernel
  have hgone : afterGoodbye.receiver.registry.connected.get? here = none := by decide +kernel
  have hs : .settled 4 .delivered ∈ afterEcho.log := by decide +kernel
  have hask : .asked 4 afterGoodbye.sender.conns.length [98] ∈ afterEcho.log := by decide +kernel
  obtain ⟨p,hp⟩ := h afterGoodbye afterEcho 4 [98] (reaches_run here there usual _) hv hgone
    (reaches_run here there _ _) hs hask (by decide)
  have hdone : done (afterEcho.log.drop afterGoodbye.log.length) =
      [.sent here ⟨.acon,0,7260,[]⟩] := by
    decide +kernel
  rw [hdone] at hp
  have hchunks : chunks Frame.maxPayload [98] ≠ [] := by decide
  exact hchunks (List.sublist_nil.mp hp)

end Network
end ReliableTransport
