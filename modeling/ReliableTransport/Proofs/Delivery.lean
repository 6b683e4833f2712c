import ReliableTransport.Proofs.Pledges

/-! What a network with one connection from an address delivers. Whatever is lost, repeated,
delayed, reordered or damaged, every record of that address takes the payloads pushed, in order and
from the first on, and what the sender takes for acknowledged has been taken by one record. -/
namespace ReliableTransport

open Connection (payloads pushes pushedBy Within)
open Registry (takings handings)

namespace Network

variable {near far : Address} {c : ConnRef} {m : Network}

/-- The payloads pushed on a connection, in order. -/
def pushed (n : Network) (c : ConnRef) : List Bytes := payloads (said c n.log)

/-- The payloads a record has taken, in order. -/
def taken (n : Network) (p : PeerId) : List Bytes := takings p (done n.log)

/-- The bytes of a record that its readers were given, in order. -/
def given (n : Network) (p : PeerId) : Bytes := (handings p (done n.log)).flatten

/-- The connection `c` goes from `near` to `far`, and no other is bound to `near`. -/
def Lone (near far : Address) (c : ConnRef) (n : Network) : Prop :=
  ∀ e ∈ n.sender.conns.zipIdx,
    (e.1.bound = near → e.2 = c) ∧ (e.2 = c → e.1.bound = near ∧ e.1.remote = far)

instance (near far : Address) (c : ConnRef) (n : Network) : Decidable (Lone near far c n) :=
  inferInstanceAs (Decidable (∀ e ∈ n.sender.conns.zipIdx, _))

theorem Lone.at (h : Lone near far c m) {d : ConnRef} {x : Connection}
    (hx : m.sender.conns[d]? = some x) :
    (x.bound = near → d = c) ∧ (d = c → x.bound = near ∧ x.remote = far) :=
  h (x,d) (List.mem_zipIdx_iff_getElem?.mpr hx)

/-- There never was any other record of an address than `p`. -/
def Only (near : Address) (p : PeerId) (n : Network) : Prop :=
  ∀ (q : PeerId) y, n.receiver.registry.peers[q]? = some y → y.addr = near → q = p

/-- Nothing is known of a sender and a receiver that have done nothing yet. -/
theorem vacant_start (ss : Sender.Settings) (a : Address) : (Sender.start ss).Vacant a :=
  fun _ he => by cases he

theorem Lone.sole (hl : Lone near far c m) (ss : Sender.Settings) (rs : Receiver.Settings)
    (hfew : (m.pushed c).length < Signed.fragmentLimit) :
    Sole near far c (m.receiver.closing = true) (start ss rs) m where
  new := fun _ _ hx hb _ => (hl.at hx).1 hb
  ends := fun _ hx => (hl.at hx).2 rfl
  few := hfew
  shut := fun h => h

/-- What a network keeps in which only one connection was ever bound to the watched address. -/
theorem Lone.ties {ss : Sender.Settings} {rs : Receiver.Settings}
    (hr : Reaches near far (start ss rs) m) (hl : Lone near far c m)
    (hfew : (m.pushed c).length < Signed.fragmentLimit) :
    Ties near far c (m.receiver.closing = true) (.empty rs.retiredCapacity) m ∧ Pledged c m := by
  have hsound := sound_start ss rs
  have hties : Ties near far c (m.receiver.closing = true) (.empty rs.retiredCapacity)
      (start ss rs) := Ties.begin hsound rfl rfl (vacant_start ss near)
  have hsole := hl.sole ss rs hfew
  exact ⟨hties.reach hr hsole,(Pledged.begin hsound rfl rfl).reach hr hties hsole⟩

/-- A new record has taken the first payloads pushed, as many as its number says. -/
theorem Ties.taken_of_new {shutting : Prop} {r₀ : Registry} (h : Ties near far c shutting r₀ m)
    {p : PeerId} {x : Peer} (hx : m.receiver.registry.peers[p]? = some x) (ha : x.addr = near)
    (hp : r₀.peers.length ≤ p) :
    ∃ n : Nat, x.taken = n ∧ n ≤ (m.pushed c).length ∧ m.taken p = (m.pushed c).take n ∧
      m.given p ++ x.inbox.unread = ((m.pushed c).take n).flatten := by
  have hreach := h.link.reach_le
  obtain ⟨_,hbytes⟩ := h.link.kept p x hx hp
  have ht := h.link.tally p x hx ha
  rw [Link.base_of_new hp] at ht
  cases ht with
  | spent hs _ => omega
  | good _ hle ht hn =>
    have hpushed : payloads (m.link c).said = m.pushed c := rfl
    have hgiven : (handings p (m.link c).done).flatten = m.given p := rfl
    have htaken : takings p (m.link c).done = m.taken p := rfl
    rw [hpushed] at ht hreach
    rw [hgiven] at hbytes
    rw [Int.toNat_zero,List.drop_zero,htaken] at ht
    refine ⟨x.taken.toNat,by omega,by omega,ht,?_⟩
    rw [hbytes,← ht,← htaken]

theorem Ties.taken_le {shutting : Prop} {r₀ : Registry} (h : Ties near far c shutting r₀ m)
    {p : PeerId} {x : Peer} (hx : m.receiver.registry.peers[p]? = some x) (ha : x.addr = near)
    (hp : r₀.peers.length ≤ p) : x.taken = 0 ∨ x.taken ≤ (m.link c).reach := by
  have ht := h.link.tally p x hx ha
  rw [Link.base_of_new hp] at ht
  cases ht with
  | spent hs _ => omega
  | good _ _ _ hr => exact hr

theorem sublist_of_within {k : CallId} {ds : List Connection.Deed} {n : Nat}
    (h : Within k ds n) : (pushedBy k ds).Sublist ((payloads ds).take n) := by
  have hdrop : ((pushes ds).drop n).filter (fun e => e.1 = k) = [] := by
    refine List.filter_eq_nil_iff.mpr fun e he => ?_
    obtain ⟨i,hi⟩ := List.getElem?_of_mem he
    rw [List.getElem?_drop] at hi
    intro hk
    rw [decide_eq_true_eq] at hk
    have hlt := h (n + i) e.2 (by rw [hi,← hk])
    omega
  have hsplit : ((pushes ds).take n).filter (fun e => e.1 = k) =
      (pushes ds).filter fun e => e.1 = k := by
    rw [← List.append_nil (List.filter _ _),← hdrop,← List.filter_append,List.take_append_drop]
  rw [pushedBy,← hsplit,payloads,← List.map_take]
  exact List.filter_sublist.map _

theorem Ties.point_taken {shutting : Prop} {r₀ : Registry} (h : Ties near far c shutting r₀ m)
    (hr₀ : r₀.peers = []) {x : Connection} (hx : m.sender.conns[c]? = some x)
    (hacked : 0 ≤ x.outbox.lastAcked.toInt) :
    ∃ (p : PeerId) (y : Peer), m.receiver.registry.peers[p]? = some y ∧ y.addr = near ∧
      ∃ n : Nat, x.outbox.lastAcked.toInt ≤ n ∧ m.taken p = (m.pushed c).take n := by
  have hnew := Link.all_new hr₀
  by_cases hz : 0 < x.outbox.lastAcked.toInt
  · obtain ⟨p,y,hy,ha,_,hle⟩ := h.link.point x hx hz
    obtain ⟨n,hn,_,htaken,_⟩ := h.taken_of_new hy ha (hnew p)
    exact ⟨p,y,hy,ha,n,by omega,htaken⟩
  · have he : x.outbox.established = true := Outbox.established_eq_true_iff.mpr hacked
    obtain ⟨p,y,hy,ha⟩ := h.link.met x hx he
    obtain ⟨n,hn,_,htaken,_⟩ := h.taken_of_new hy ha (hnew p)
    exact ⟨p,y,hy,ha,n,by omega,htaken⟩

/-- A call that was told its data was delivered has pushed it, and all of it is acknowledged. -/
theorem Pledged.point_of_delivered (h : Pledged c m) {k : CallId} {data : Bytes}
    (hs : .settled k .delivered ∈ m.log) (hask : .asked k c data ∈ m.log) (hdata : data ≠ []) :
    ∃ x, m.sender.conns[c]? = some x ∧ 0 < x.outbox.lastAcked.toInt ∧
      pushedBy k (said c m.log) = chunks Frame.maxPayload data ∧
      Within k (said c m.log) x.outbox.lastAcked.toInt := by
  obtain ⟨hall,hin⟩ := h.delivered k data hs hask
  have hne : pushedBy k (said c m.log) ≠ [] := by
    rw [hall]
    intro hnil
    have hflat := flatten_chunks (show 0 < Frame.maxPayload by decide) data
    rw [hnil] at hflat
    exact hdata hflat.symm
  have hfilter : (pushes (said c m.log)).filter (fun e => e.1 = k) ≠ [] := by
    intro hnil
    rw [pushedBy,hnil] at hne
    exact hne rfl
  obtain ⟨e,he⟩ := List.exists_mem_of_ne_nil _ hfilter
  obtain ⟨hmem,hk⟩ := List.mem_filter.mp he
  rw [decide_eq_true_eq] at hk
  obtain ⟨i,hi⟩ := List.getElem?_of_mem hmem
  have hlt := hin i e.2 (by rw [hi,← hk])
  cases hx : m.sender.conns[c]? with
  | none =>
    rw [point,hx] at hlt
    have hneg : (i : Int) < -1 := hlt
    omega
  | some x =>
    rw [point_of_some hx] at hin hlt
    exact ⟨x,rfl,by omega,hall,hin⟩

/-- A network with one connection from an address delivers what is pushed on it. Every record of
the address takes the first payloads pushed, as many as its number says, and what its readers are
given is a prefix of all that was pushed. Up to where the sender has everything acknowledged all was
taken by a single record, and so was all data of a call that is told it was delivered. -/
theorem lone_delivery {ss : Sender.Settings} {rs : Receiver.Settings}
    (hr : Reaches near far (start ss rs) m) (hl : Lone near far c m)
    (hfew : (m.pushed c).length < Signed.fragmentLimit) :
    (∀ (p : PeerId) (x : Peer), m.receiver.registry.peers[p]? = some x → x.addr = near →
      ∃ n : Nat, x.inbox.lastAccepted.toInt = n ∧ n ≤ (m.pushed c).length ∧
        m.taken p = (m.pushed c).take n ∧
        m.given p ++ x.inbox.unread = ((m.pushed c).take n).flatten ∧
        m.given p <+: (m.pushed c).flatten) ∧
    (∀ x, m.sender.conns[c]? = some x → 0 ≤ x.outbox.lastAcked.toInt →
      ∃ (p : PeerId) (y : Peer), m.receiver.registry.peers[p]? = some y ∧ y.addr = near ∧
        (m.pushed c).take x.outbox.lastAcked.toInt.toNat <+: m.taken p) ∧
    ∀ k data, .settled k .delivered ∈ m.log → .asked k c data ∈ m.log → data ≠ [] →
      ∃ (p : PeerId) (y : Peer), m.receiver.registry.peers[p]? = some y ∧ y.addr = near ∧
        (chunks Frame.maxPayload data).Sublist (m.taken p) := by
  obtain ⟨ht,hp⟩ := hl.ties hr hfew
  refine ⟨fun p x hx ha => ?_,fun x hx hacked => ?_,fun k data hs hask hdata => ?_⟩
  · obtain ⟨n,hn,hle,htaken,hbytes⟩ := ht.taken_of_new hx ha (Nat.zero_le p)
    refine ⟨n,hn,hle,htaken,hbytes,?_⟩
    have hall : ((m.pushed c).take n).flatten ++ ((m.pushed c).drop n).flatten =
        (m.pushed c).flatten := by
      rw [← List.flatten_append,List.take_append_drop]
    rw [← hall,← hbytes,List.append_assoc]
    exact List.prefix_append _ _
  · obtain ⟨p,y,hy,ha,n,hn,htaken⟩ := ht.point_taken rfl hx hacked
    refine ⟨p,y,hy,ha,?_⟩
    rw [htaken]
    exact List.take_prefix_take_left (by omega)
  · obtain ⟨x,hx,hpos,hall,hin⟩ := hp.point_of_delivered hs hask hdata
    obtain ⟨p,y,hy,ha,n,hn,htaken⟩ := ht.point_taken rfl hx (by omega)
    refine ⟨p,y,hy,ha,?_⟩
    rw [htaken,← hall]
    exact sublist_of_within (hin.mono hn)

def afterDelivery : Network := usual.run here there (handshake ++
  [.sender (.send 1 [97]),.sender (.wake 0 2),.forth 6 none,.back 9 0 none 3,.resume 1,
    .receiver (.read here 10)])

theorem lone_delivery_of_byte :
    Lone here there 0 afterDelivery ∧ (afterDelivery.pushed 0).length < Signed.fragmentLimit ∧
      .settled 1 .delivered ∈ afterDelivery.log ∧ .asked 1 0 [97] ∈ afterDelivery.log ∧
      ∃ (p : PeerId) (y : Peer), afterDelivery.receiver.registry.peers[p]? = some y ∧
        y.addr = here ∧ (chunks Frame.maxPayload [97]).Sublist (afterDelivery.taken p) := by
  have hl : Lone here there 0 afterDelivery := by decide +kernel
  have hfew : (afterDelivery.pushed 0).length < Signed.fragmentLimit := by decide +kernel
  have hs : .settled 1 .delivered ∈ afterDelivery.log := by decide +kernel
  have hask : .asked 1 0 [97] ∈ afterDelivery.log := by decide +kernel
  refine ⟨hl,hfew,hs,hask,?_⟩
  exact (lone_delivery (reaches_run here there usual _) hl hfew).2.2 1 [97] hs hask (by decide)

end Network
end ReliableTransport
