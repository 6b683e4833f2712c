import ReliableTransport.Proofs.Conduct
import ReliableTransport.Proofs.Intake

/-! A connection and the records of the receiver it talks to. Either side moves by its own steps and
hears only what the other has said (`Link.Step`). The invariant (`Link.Inv`) ties together what was
pushed, what was sent, what each record has taken and how far the connection believes it
acknowledged. -/
namespace ReliableTransport

open Connection (Conduct Genuine Turn payloads requestFrame)
open Registry (Act takings handings)

/-- The number of the last fragment a record has taken. -/
def Peer.taken (x : Peer) : Int := x.inbox.lastAccepted.toInt

/-- One connection, the records there are, and all that either side has done while watched. -/
structure Link where
  conn : Option Connection
  said : List Connection.Deed
  registry : Registry
  done : List Registry.Deed

namespace Link

def reach (l : Link) : Int :=
  match l.conn with
  | none => -1
  | some x => x.outbox.highestSent.toInt

/-- One step of a link between a connection bound to `near` and a receiver: the connection is made,
takes a turn, or the receiver acts. What the connection hears was sent to `near`, and what the
receiver hears from there the connection has sent. -/
inductive Step (near : Address) (capacity : Nat) (patience : Duration) (shutting : Prop) :
    Link → Link → Prop
  | make {said : List Connection.Deed} {registry : Registry} {done : List Registry.Deed}
      (id : ConnId) (bound remote : Address) (threshold : Duration) (now : Nat) :
      Step near capacity patience shutting ⟨none,said,registry,done⟩
        ⟨some (.start id bound remote threshold now),said ++ [.sent requestFrame],registry,done⟩
  | turn {x y : Connection} {said ds : List Connection.Deed} {registry : Registry}
      {done : List Registry.Deed} {threshold : Nat}
      (h : Turn (fun frame => .sent near frame ∈ done) True threshold x ds y) :
      Step near capacity patience shutting ⟨some x,said,registry,done⟩
        ⟨some y,said ++ ds,registry,done⟩
  | act {conn : Option Connection} {said : List Connection.Deed} {registry later : Registry}
      {done ds : List Registry.Deed}
      (h : Act (fun a frame => a = near → .sent frame ∈ said) capacity patience shutting registry
        ds later) :
      Step near capacity patience shutting ⟨conn,said,registry,done⟩ ⟨conn,said,later,done ++ ds⟩

inductive Steps (near : Address) (capacity : Nat) (patience : Duration) (shutting : Prop) :
    Link → Link → Prop
  | done {l : Link} : Steps near capacity patience shutting l l
  | next {l m n : Link} (h : Step near capacity patience shutting l m)
      (hs : Steps near capacity patience shutting m n) :
      Steps near capacity patience shutting l n

/-- How much a record had taken at the beginning. -/
def base (r₀ : Registry) (p : PeerId) : Int := ((r₀.peers[p]?).map (·.taken)).getD 0

/-- What a record says counts: it is new, or it stood open at the beginning. -/
def Counts (r₀ : Registry) (p : PeerId) : Prop :=
  r₀.peers.length ≤ p ∨ (r₀.Stands p ∧ ∀ x, r₀.peers[p]? = some x → x.closing = false)

theorem all_new {r₀ : Registry} (h : r₀.peers = []) (p : PeerId) : r₀.peers.length ≤ p := by
  rw [h]
  exact Nat.zero_le p

theorem base_of_new {r₀ : Registry} {p : PeerId} (h : r₀.peers.length ≤ p) : base r₀ p = 0 := by
  rw [base,List.getElem?_eq_none h]
  rfl

/-- A record that had taken `start` fragments at the beginning, has taken `taken` since and is now
at fragment `n`. Its payloads are those pushed, in order; only a record whose numbers have run over
takes none. -/
inductive Tally (pushed : List Bytes) (reach start : Int) (taken : List Bytes) (n : Int) : Prop
  | spent (hs : start < 0) (hn : n < 0)
  | good (hs : 0 ≤ start) (hle : start ≤ n)
      (ht : taken = (pushed.take n.toNat).drop start.toNat) (hr : n = start ∨ n ≤ reach)

theorem Tally.mono {pushed more : List Bytes} {reach further start n : Int} {taken : List Bytes}
    (h : Tally pushed reach start taken n) (hp : reach ≤ pushed.length) (hr : reach ≤ further) :
    Tally (pushed ++ more) further start taken n := by
  cases h with
  | spent hs hn => exact .spent hs hn
  | good hs hle ht hn =>
    refine .good hs hle ?_ (by omega)
    rcases hn with rfl | hn
    · rw [ht,List.drop_eq_nil_of_le (by rw [List.length_take]; omega),
        List.drop_eq_nil_of_le (by rw [List.length_take]; omega)]
    · rw [ht,List.take_append_of_le_length (by omega)]

theorem Tally.take {pushed : List Bytes} {reach start : Int} {taken : List Bytes} {i : Nat}
    {piece : Bytes} (h : Tally pushed reach start taken i) (hi : pushed[i]? = some piece)
    (hr : (i : Int) < reach) : Tally pushed reach start (taken ++ [piece]) (i + 1) := by
  cases h with
  | spent hs hn => omega
  | good hs hle ht hn =>
    refine .good hs (by omega) ?_ (.inr (by omega))
    have hlt := (List.getElem?_eq_some_iff.mp hi).1
    have hsucc : ((i : Int) + 1).toNat = i + 1 := by omega
    have hi' : ((i : Int)).toNat = i := by omega
    rw [ht,hsucc,hi',List.take_add_one,hi,Option.toList_some,
      List.drop_append_of_le_length (by rw [List.length_take]; omega)]

theorem taken_eq (x : Peer) : x.taken = (x.inbox.next - 1).toInt := rfl

theorem taken_of_next {x y : Peer} (h : y.inbox.next = x.inbox.next) : y.taken = x.taken := by
  rw [taken_eq,taken_eq,h]

theorem next_eq (x : Peer) : x.inbox.next = x.inbox.lastAccepted + 1 := by
  rw [Inbox.lastAccepted,Int32.sub_add_cancel]

theorem taken_start (a : Address) (initial : Int32) (capacity : Nat) (patience : Duration) :
    (Peer.start a initial capacity patience).taken = initial.toInt := by
  rw [taken_eq]
  show (initial + 1 - 1).toInt = _
  rw [Int32.add_sub_cancel]

/-- What holds between a connection from `near` and the records of a receiver, as long as both hear
only what they have said to each other since the records were `r₀`. -/
structure Inv (near : Address) (capacity : Nat) (shutting : Prop) (r₀ : Registry) (l : Link) :
    Prop where
  unsaid : l.conn = none → l.said = []
  conduct : ∀ x, l.conn = some x → Conduct x l.said
  sound : l.registry.Sound
  older : r₀.peers.length ≤ l.registry.peers.length
  tally : ∀ p y, l.registry.peers[p]? = some y → y.addr = near →
    Tally (payloads l.said) l.reach (base r₀ p) (takings p l.done) y.taken
  kept : ∀ p y, l.registry.peers[p]? = some y → r₀.peers.length ≤ p →
    y.inbox.capacity = capacity ∧
      (handings p l.done).flatten ++ y.inbox.unread = (takings p l.done).flatten
  absent : ∀ p, l.registry.peers[p]? = none → takings p l.done = [] ∧ handings p l.done = []
  stands : ∀ p y, l.registry.Stands p → l.registry.peers[p]? = some y → y.closing = false →
    Counts r₀ p
  plain : ∀ frame, .sent near frame ∈ l.done → frame.Fits
  greeted : ∀ frame, .sent near frame ∈ l.done → frame.kind = .acon →
    ∃ (p : PeerId) (y : Peer), l.registry.peers[p]? = some y ∧ y.addr = near
  acks : ∀ frame, .sent near frame ∈ l.done → frame.kind = .adat → 0 ≤ frame.fragment.toInt →
    ∃ p y, l.registry.peers[p]? = some y ∧ y.addr = near ∧ Counts r₀ p ∧
      frame.fragment.toInt ≤ y.taken
  point : ∀ x, l.conn = some x → 0 < x.outbox.lastAcked.toInt →
    ∃ p y, l.registry.peers[p]? = some y ∧ y.addr = near ∧ Counts r₀ p ∧
      x.outbox.lastAcked.toInt ≤ y.taken
  met : ∀ x, l.conn = some x → x.outbox.established = true →
    ∃ (p : PeerId) (y : Peer), l.registry.peers[p]? = some y ∧ y.addr = near
  ended : ∀ before after, l.done = before ++ .ended near :: after → ¬ shutting →
    ∃ p y, l.registry.peers[p]? = some y ∧ y.addr = near ∧ y.closed = true ∧
      (r₀.peers.length ≤ p → (handings p before).flatten = (takings p l.done).flatten)

namespace Inv

variable {near : Address} {capacity : Nat} {patience : Duration} {shutting : Prop}
  {r₀ : Registry} {l : Link}

theorem genuine (h : Inv near capacity shutting r₀ l) {frame : Frame}
    (hf : .sent frame ∈ l.said) : Genuine (payloads l.said) l.reach frame := by
  cases hc : l.conn with
  | none =>
    rw [h.unsaid hc] at hf
    cases hf
  | some x =>
    have hr : l.reach = x.outbox.highestSent.toInt := by simp only [reach,hc]
    rw [hr]
    exact (h.conduct x hc).genuine frame hf

theorem reach_le (h : Inv near capacity shutting r₀ l) : l.reach ≤ (payloads l.said).length := by
  cases hc : l.conn with
  | none =>
    have hr : l.reach = -1 := by simp only [reach,hc]
    omega
  | some x =>
    have hr : l.reach = x.outbox.highestSent.toInt := by simp only [reach,hc]
    rw [hr]
    rcases (h.conduct x hc).outbox with ⟨hu,_⟩ | hk
    · have hm : (-1 : Int32).toInt = -1 := by decide
      rw [hu.highest,hm]
      omega
    · exact hk.highest_le

theorem begin (hr : r₀.Sound) : Inv near capacity shutting r₀ ⟨none,[],r₀,[]⟩ where
  unsaid := fun _ => rfl
  conduct := fun _ hx => by cases hx
  sound := hr
  older := Nat.le_refl _
  tally := by
    intro p y hy _
    have hbase : base r₀ p = y.taken := by
      have hy : r₀.peers[p]? = some y := hy
      rw [base,hy]
      rfl
    rw [hbase]
    by_cases hn : y.taken < 0
    · exact .spent hn hn
    · exact .good (by omega) (Int.le_refl _) (by simp [takings]) (.inl rfl)
  kept := by
    intro p y hy hp
    have hlt := (List.getElem?_eq_some_iff.mp hy).1
    exact absurd hlt (Nat.not_lt.mpr hp)
  absent := fun _ _ => ⟨rfl,rfl⟩
  stands := by
    intro p y hp hy hc
    refine .inr ⟨hp,fun x hx => ?_⟩
    have hy : r₀.peers[p]? = some y := hy
    rw [hx] at hy
    rw [Option.some.inj hy]
    exact hc
  plain := fun _ hf => by cases hf
  greeted := fun _ hf => by cases hf
  acks := fun _ hf => by cases hf
  point := fun _ hx => by cases hx
  met := fun _ hx => by cases hx
  ended := fun before after hd => by cases before <;> cases hd

theorem make (h : Inv near capacity shutting r₀ l) (hc : l.conn = none) (id : ConnId)
    (bound remote : Address) (threshold : Duration) (now : Nat) :
    Inv near capacity shutting r₀
      ⟨some (.start id bound remote threshold now),l.said ++ [.sent requestFrame],l.registry,
        l.done⟩ := by
  have hs := h.unsaid hc
  have hr : l.reach = -1 := by simp only [reach,hc]
  have hu := Outbox.untouched_start now
  have hm : (-1 : Int32).toInt = -1 := by decide
  exact {
    unsaid := fun hn => by cases hn
    conduct := by
      intro x hx
      obtain rfl := Option.some.inj hx
      rw [hs]
      exact Connection.conduct_start id bound remote threshold now
    sound := h.sound
    older := h.older
    tally := by
      intro p y hy ha
      have ht := h.tally p y hy ha
      rw [hs,hr] at ht
      simp only [hs,List.nil_append,Connection.payloads_singleton_sent]
      exact ht
    kept := h.kept
    absent := h.absent
    stands := h.stands
    plain := h.plain
    greeted := h.greeted
    acks := h.acks
    point := by
      intro x hx hp
      obtain rfl := Option.some.inj hx
      have hl : (Connection.start id bound remote threshold now).outbox.lastAcked = -1 := hu.acked
      rw [hl,hm] at hp
      omega
    met := by
      intro x hx he
      obtain rfl := Option.some.inj hx
      have hn : (Connection.start id bound remote threshold now).outbox.established = false :=
        hu.not_established
      rw [hn] at he
      cases he
    ended := h.ended }

theorem turn {x y : Connection} {said ds : List Connection.Deed} {registry : Registry}
    {done : List Registry.Deed} {threshold : Nat} {asking : Prop}
    (h : Inv near capacity shutting r₀ ⟨some x,said,registry,done⟩)
    (ht : Turn (fun frame => .sent near frame ∈ done) asking threshold x ds y)
    (hfew : (payloads (said ++ ds)).length < Signed.fragmentLimit) :
    Inv near capacity shutting r₀ ⟨some y,said ++ ds,registry,done⟩ := by
  have hx := h.conduct x rfl
  exact {
    unsaid := fun hn => by cases hn
    conduct := by
      intro z hz
      obtain rfl := Option.some.inj hz
      exact ht.conduct hx hfew
    sound := h.sound
    older := h.older
    tally := by
      intro p z hz ha
      rw [Connection.payloads_append]
      exact (h.tally p z hz ha).mono h.reach_le (ht.highest_le hx)
    kept := h.kept
    absent := h.absent
    stands := h.stands
    plain := h.plain
    greeted := h.greeted
    acks := h.acks
    point := by
      intro z hz hp
      obtain rfl := Option.some.inj hz
      cases ht.advance hx with
      | stay ha =>
        rw [ha] at hp ⊢
        exact h.point x rfl hp
      | accepted hf hk he ha hw =>
        rw [ha] at hp
        exact absurd hp (by decide)
      | acknowledged hf hk _ ha hn =>
        rw [ha]
        exact h.acks _ hf hk hn
    met := by
      intro z hz he
      obtain rfl := Option.some.inj hz
      cases ht.advance hx with
      | stay ha =>
        refine h.met x rfl ?_
        rw [Outbox.established,← ha]
        exact he
      | accepted hf hk _ _ _ => exact h.greeted _ hf hk
      | acknowledged hf hk _ ha hn =>
        obtain ⟨p,w,hw,hadd,_⟩ := h.acks _ hf hk hn
        exact ⟨p,w,hw,hadd⟩
    ended := h.ended }

/-- What the receiver hears from `near` as a request to connect proposes nothing sent before. -/
theorem fragment_of_rcon {pushed : List Bytes} {reach : Int} {frame : Frame}
    (h : Genuine pushed reach frame) (hk : frame.kind = .rcon) : frame.fragment = 0 := by
  cases h with
  | request => rfl
  | leave => cases hk
  | life => cases hk
  | data _ _ => cases hk

theorem tally_take {pushed taken : List Bytes} {reach start : Int} {frame : Frame} {x y : Peer}
    (ht : Tally pushed reach start taken x.taken) (hg : Genuine pushed reach frame)
    (hk : frame.kind = .data) (hfew : pushed.length < Signed.fragmentLimit)
    (ho : x.inbox.offer frame.fragment frame.payload = some y.inbox) :
    Tally pushed reach start (taken ++ [frame.payload]) y.taken ∧ x.taken ≤ y.taken := by
  obtain ⟨⟨hnext,_⟩,hy⟩ := Inbox.offer_eq_some_iff.mp ho
  have hyn : y.taken = frame.fragment.toInt := by
    rw [taken_eq,hy,hnext,Int32.add_sub_cancel]
  have hxn : x.taken = (frame.fragment - 1).toInt := by rw [taken_eq,hnext]
  rw [hyn]
  rw [hxn] at ht ⊢
  cases hg with
  | request => cases hk
  | leave => cases hk
  | life =>
    -- a sign of life is taken only by a record whose numbers have run over
    have h₁ : (-1 : Int32).toInt = -1 := by decide
    have h₂ : (-1 - 1 : Int32).toInt = -2 := by decide
    simp only [Sender.signal,Frame.keepAlive,h₁,h₂] at ht ⊢
    cases ht with
    | spent hs hn => exact ⟨.spent hs (by omega),by omega⟩
    | good hs hle _ _ => omega
  | @data i piece hi hr =>
    have hlt := (List.getElem?_eq_some_iff.mp hi).1
    have h₁ : (Int32.ofNat (i + 1)).toInt = (i : Int) + 1 := by
      rw [Signed.toInt_ofNat (by omega)]
      omega
    have h₂ : (Int32.ofNat (i + 1) - 1).toInt = i := by
      rw [Signed.toInt_pred (by omega),h₁]
      omega
    simp only [Sender.dataFrame,h₁,h₂] at ht ⊢
    exact ⟨ht.take hi hr,by omega⟩

section

variable {conn : Option Connection} {said : List Connection.Deed} {registry later : Registry}
  {done ds : List Registry.Deed}

theorem act_onward (h : Inv near capacity shutting r₀ ⟨conn,said,registry,done⟩)
    (ha : Act (fun a frame => a = near → .sent frame ∈ said) capacity patience shutting registry ds
      later) (hfew : (payloads said).length < Signed.fragmentLimit) {p : PeerId} {x : Peer}
    (hx : registry.peers[p]? = some x) (hadd : x.addr = near) :
    ∃ y, later.peers[p]? = some y ∧ y.addr = near ∧ x.taken ≤ y.taken := by
  obtain ⟨y,hy,hl,hp⟩ := ha.record h.sound hx
  refine ⟨y,hy,by rw [hl.addr,hadd],?_⟩
  cases hp with
  | keep hn _ _ => exact Int.le_of_eq (taken_of_next hn).symm
  | take hf hk _ _ ho _ _ =>
    exact (tally_take (h.tally p x hx hadd) (h.genuine (hf hadd)) hk hfew ho).2

theorem act_tally (h : Inv near capacity shutting r₀ ⟨conn,said,registry,done⟩)
    (ha : Act (fun a frame => a = near → .sent frame ∈ said) capacity patience shutting registry ds
      later) (hfew : (payloads said).length < Signed.fragmentLimit) {p : PeerId} {y : Peer}
    (hy : later.peers[p]? = some y) (hadd : y.addr = near) :
    Tally (payloads said) (reach ⟨conn,said,registry,done⟩) (base r₀ p) (takings p (done ++ ds))
      y.taken := by
  rw [Registry.takings_append]
  rcases ha.origin h.sound hy with ⟨x,hx,hl,hp⟩ | ⟨rfl,rfl,a,frame,hf,hk,rfl⟩
  · have hxa : x.addr = near := by rw [← hl.addr,hadd]
    cases hp with
    | keep hn ht _ =>
      rw [ht,List.append_nil,taken_of_next hn]
      exact h.tally p x hx hxa
    | take hf hk _ _ ho ht _ =>
      rw [ht]
      exact (tally_take (h.tally p x hx hxa) (h.genuine (hf hxa)) hk hfew ho).1
  · have hnone : takings registry.peers.length done = [] :=
      (h.absent registry.peers.length (by simp)).1
    have hz : frame.fragment = 0 := fragment_of_rcon (h.genuine (hf hadd)) hk
    rw [hnone,taken_start,hz,base_of_new h.older,Int32.toInt_zero]
    exact .good (Int.le_refl _) (Int.le_refl _) (by simp) (.inl rfl)

theorem act_kept (h : Inv near capacity shutting r₀ ⟨conn,said,registry,done⟩)
    (ha : Act (fun a frame => a = near → .sent frame ∈ said) capacity patience shutting registry ds
      later) {p : PeerId} {y : Peer} (hy : later.peers[p]? = some y) (hp : r₀.peers.length ≤ p) :
    y.inbox.capacity = capacity ∧
      (handings p (done ++ ds)).flatten ++ y.inbox.unread = (takings p (done ++ ds)).flatten := by
  rw [Registry.takings_append,Registry.handings_append,List.flatten_append,List.flatten_append]
  rcases ha.origin h.sound hy with ⟨x,hx,hl,hpass⟩ | ⟨rfl,rfl,a,frame,hf,hk,rfl⟩
  · obtain ⟨hcap,hbytes⟩ := h.kept p x hx hp
    refine ⟨by rw [hl.capacity,hcap],?_⟩
    have hbytes : (handings p done).flatten ++ x.inbox.unread = (takings p done).flatten := hbytes
    cases hpass with
    | keep hn ht hh => rw [ht,List.flatten_nil,List.append_nil,List.append_assoc,hh,hbytes]
    | take hf hk _ _ ho ht hh =>
      obtain ⟨_,hi⟩ := Inbox.offer_eq_some_iff.mp ho
      rw [ht,hh,hi,← hbytes]
      simp
  · obtain ⟨h₁,h₂⟩ := h.absent registry.peers.length (by simp)
    have h₁ : takings registry.peers.length done = [] := h₁
    have h₂ : handings registry.peers.length done = [] := h₂
    refine ⟨rfl,?_⟩
    rw [h₁,h₂]
    rfl

theorem act_counts (h : Inv near capacity shutting r₀ ⟨conn,said,registry,done⟩)
    (ha : Act (fun a frame => a = near → .sent frame ∈ said) capacity patience shutting registry ds
      later) {p : PeerId} {y : Peer} (hp : later.Stands p) (hy : later.peers[p]? = some y)
    (hc : y.closing = false) : Counts r₀ p := by
  rcases ha.stands hp with hp | hp
  · obtain ⟨x,hx,_⟩ := h.sound.stands hp
    obtain ⟨z,hz,hl,_⟩ := ha.record h.sound hx
    rw [hy] at hz
    obtain rfl := Option.some.inj hz
    have hxc : x.closing = false := Bool.eq_false_iff.mpr fun hxc => by
      rw [hl.closing hxc] at hc
      cases hc
    exact h.stands p x hp hx hxc
  · rw [hp]
    exact .inl h.older

theorem act_torn (h : Inv near capacity shutting r₀ ⟨conn,said,registry,done⟩)
    (ha : Act (fun a frame => a = near → .sent frame ∈ said) capacity patience shutting registry ds
      later) {p : PeerId} {x : Peer} (hx : registry.peers[p]? = some x) (hcl : x.closed = true) :
    ∃ y, later.peers[p]? = some y ∧ y.addr = x.addr ∧ y.closed = true ∧
      takings p (done ++ ds) = takings p done := by
  obtain ⟨y,hy,hl,hpass⟩ := ha.record h.sound hx
  refine ⟨y,hy,hl.addr,hl.closed hcl,?_⟩
  rw [Registry.takings_append]
  cases hpass with
  | keep _ ht _ => rw [ht,List.append_nil]
  | take _ _ hc _ _ _ _ =>
    obtain ⟨z,hz,_,hopen⟩ := h.sound.connected _ _ hc
    have hz : registry.peers[p]? = some z := hz
    rw [hx] at hz
    obtain rfl := Option.some.inj hz
    rw [hcl] at hopen
    cases hopen

theorem act_ended (h : Inv near capacity shutting r₀ ⟨conn,said,registry,done⟩)
    (ha : Act (fun a frame => a = near → .sent frame ∈ said) capacity patience shutting registry ds
      later) {before after : List Registry.Deed} (hd : done ++ ds = before ++ .ended near :: after)
    (hn : ¬ shutting) :
    ∃ p y, later.peers[p]? = some y ∧ y.addr = near ∧ y.closed = true ∧
      (r₀.peers.length ≤ p →
        (handings p before).flatten = (takings p (done ++ ds)).flatten) := by
  have hold : ∀ mid, done = before ++ .ended near :: mid →
      ∃ p y, later.peers[p]? = some y ∧ y.addr = near ∧ y.closed = true ∧
        (r₀.peers.length ≤ p →
          (handings p before).flatten = (takings p (done ++ ds)).flatten) := by
    intro mid hmid
    obtain ⟨p,x,hx,hadd,hcl,hsame⟩ := h.ended before mid hmid hn
    obtain ⟨y,hy,hya,hyc,ht⟩ := h.act_torn ha hx hcl
    exact ⟨p,y,hy,by rw [hya,hadd],hyc,fun hp => by rw [ht]; exact hsame hp⟩
  by_cases hmem : .ended near ∈ ds
  · obtain ⟨rfl,p,x,hx,hadd,hcl,hu⟩ := ha.ended h.sound hmem hn
    have hnow : before = done → ∃ p y, later.peers[p]? = some y ∧ y.addr = near ∧
        y.closed = true ∧ (r₀.peers.length ≤ p →
          (handings p before).flatten = (takings p (done ++ [.ended near])).flatten) := by
      rintro rfl
      obtain ⟨y,hy,hya,hyc,ht⟩ := h.act_torn ha hx hcl
      refine ⟨p,y,hy,by rw [hya,hadd],hyc,fun hp => ?_⟩
      obtain ⟨_,hbytes⟩ := h.kept p x hx hp
      rw [hu,List.append_nil] at hbytes
      rw [ht]
      exact hbytes
    rcases List.append_eq_append_iff.mp hd with ⟨mid,rfl,hy⟩ | ⟨mid,hy,hz⟩
    · cases mid with
      | nil => exact hnow (List.append_nil _)
      | cons d mid => simp at hy
    · cases mid with
      | nil => exact hnow (by rw [hy,List.append_nil])
      | cons d mid =>
        simp only [List.cons_append,List.cons.injEq] at hz
        exact hold mid (by rw [hy,hz.1])
  · obtain ⟨mid,hmid⟩ := Connection.Conduct.split_of_not_mem hd hmem
    exact hold mid hmid

theorem act (h : Inv near capacity shutting r₀ ⟨conn,said,registry,done⟩)
    (ha : Act (fun a frame => a = near → .sent frame ∈ said) capacity patience shutting registry ds
      later) (hfew : (payloads said).length < Signed.fragmentLimit) :
    Inv near capacity shutting r₀ ⟨conn,said,later,done ++ ds⟩ where
  unsaid := h.unsaid
  conduct := h.conduct
  sound := ha.sound h.sound
  older := by
    have hlen := h.older
    rcases ha.fresh with he | ⟨_,_,_,_,_,he⟩
    · rw [he]
      exact hlen
    · rw [he,List.length_append]
      exact Nat.le_add_right_of_le hlen
  tally := fun _ _ hy hadd => h.act_tally ha hfew hy hadd
  kept := fun _ _ hy hp => h.act_kept ha hy hp
  absent := by
    intro p hp
    have hn : registry.peers[p]? = none := by
      cases hx : registry.peers[p]? with
      | none => rfl
      | some x =>
        obtain ⟨y,hy,_⟩ := ha.record h.sound hx
        rw [hp] at hy
        cases hy
    obtain ⟨h₁,h₂⟩ := h.absent p hn
    obtain ⟨h₃,h₄⟩ := ha.silent hn
    rw [Registry.takings_append,Registry.handings_append,h₁,h₂,h₃,h₄]
    exact ⟨rfl,rfl⟩
  stands := fun _ _ hp hy hc => h.act_counts ha hp hy hc
  plain := by
    intro frame hf
    rcases List.mem_append.mp hf with hf | hf
    · exact h.plain frame hf
    · cases ha.sent h.sound hf with
      | greet _ _ => exact Nat.zero_le _
      | again _ _ => exact Nat.zero_le _
      | data _ _ _ _ => exact Nat.zero_le _
      | leave => exact Nat.zero_le _
  greeted := by
    intro frame hf hk
    rcases List.mem_append.mp hf with hf | hf
    · obtain ⟨p,x,hx,hadd⟩ := h.greeted frame hf hk
      obtain ⟨y,hy,hya,_⟩ := h.act_onward ha hfew hx hadd
      exact ⟨p,y,hy,hya⟩
    · cases ha.sent h.sound hf with
      | greet hx hadd => exact ⟨_,_,hx,hadd⟩
      | again hx hadd => exact ⟨_,_,hx,hadd⟩
      | data _ _ _ _ => cases hk
      | leave => cases hk
  acks := by
    intro frame hf hk hn
    rcases List.mem_append.mp hf with hf | hf
    · obtain ⟨p,x,hx,hadd,hc,hle⟩ := h.acks frame hf hk hn
      obtain ⟨y,hy,hya,hmono⟩ := h.act_onward ha hfew hx hadd
      exact ⟨p,y,hy,hya,hc,Int.le_trans hle hmono⟩
    · cases ha.sent h.sound hf with
      | greet _ _ => cases hk
      | again _ _ => cases hk
      | @data p x hx hadd hc ho =>
        exact ⟨p,x,hx,hadd,h.act_counts ha (.inr ⟨_,hc⟩) hx ho,Int.le_refl _⟩
      | leave => cases hk
  point := by
    intro z hz hp
    obtain ⟨p,x,hx,hadd,hc,hle⟩ := h.point z hz hp
    obtain ⟨y,hy,hya,hmono⟩ := h.act_onward ha hfew hx hadd
    exact ⟨p,y,hy,hya,hc,Int.le_trans hle hmono⟩
  met := by
    intro z hz he
    obtain ⟨p,x,hx,hadd⟩ := h.met z hz he
    obtain ⟨y,hy,hya,_⟩ := h.act_onward ha hfew hx hadd
    exact ⟨p,y,hy,hya⟩
  ended := fun _ _ hd hn => h.act_ended ha hd hn

end

theorem step {m : Link} (h : Inv near capacity shutting r₀ l)
    (hs : Step near capacity patience shutting l m)
    (hfew : (payloads m.said).length < Signed.fragmentLimit) :
    Inv near capacity shutting r₀ m := by
  cases hs with
  | make id bound remote threshold now => exact h.make rfl id bound remote threshold now
  | turn ht => exact h.turn ht hfew
  | act ha => exact h.act ha hfew

end Inv

section

variable {near : Address} {capacity : Nat} {patience : Duration} {shutting : Prop}
  {r₀ : Registry} {l m : Link}

theorem Step.length_le (h : Step near capacity patience shutting l m) :
    (payloads l.said).length ≤ (payloads m.said).length := by
  cases h with
  | make id bound remote threshold now => simp
  | turn _ => simp
  | act _ => exact Nat.le_refl _

theorem Steps.length_le (h : Steps near capacity patience shutting l m) :
    (payloads l.said).length ≤ (payloads m.said).length := by
  induction h with
  | done => exact Nat.le_refl _
  | next h _ ih => exact Nat.le_trans h.length_le ih

/-- Steps in a row keep the invariant, unless fragment numbers have run out by their end. -/
theorem Inv.steps (h : Inv near capacity shutting r₀ l)
    (hs : Steps near capacity patience shutting l m)
    (hfew : (payloads m.said).length < Signed.fragmentLimit) :
    Inv near capacity shutting r₀ m := by
  induction hs with
  | done => exact h
  | next hl hm ih => exact ih (h.step hl (Nat.lt_of_le_of_lt hm.length_le hfew)) hfew

theorem steps_of_turns (patience : Duration) {x y : Connection}
    {said ds : List Connection.Deed} {registry : Registry} {done : List Registry.Deed} {threshold : Nat}
    (h : Connection.Turns (fun frame => .sent near frame ∈ done) True threshold x ds y) :
    Steps near capacity patience shutting ⟨some x,said,registry,done⟩
      ⟨some y,said ++ ds,registry,done⟩ := by
  induction h generalizing said with
  | done =>
    rw [List.append_nil]
    exact .done
  | next h _ ih =>
    rw [← List.append_assoc]
    exact .next (.turn h) ih

theorem steps_of_acts {conn : Option Connection} {said : List Connection.Deed}
    {registry later : Registry} {done ds : List Registry.Deed}
    (h : Registry.Acts (fun a frame => a = near → .sent frame ∈ said) capacity patience shutting
      registry ds later) :
    Steps near capacity patience shutting ⟨conn,said,registry,done⟩
      ⟨conn,said,later,done ++ ds⟩ := by
  induction h generalizing done with
  | done =>
    rw [List.append_nil]
    exact .done
  | next h _ ih =>
    rw [← List.append_assoc]
    exact .next (.act h) ih

end

end Link
end ReliableTransport
