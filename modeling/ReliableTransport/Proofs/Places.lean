import ReliableTransport.Proofs.Moves

/-! Where the addresses of a receiver stand. An address waits, is connected or is retired, never two
of these, and the retired ones are listed in the order in which they were retired, no more of them
than there is room for (`Tidy`). Every move leaves it so (`Tidy.change`), and the mark of a retired
address goes in three ways only (`Forgets`). -/
namespace ReliableTransport

namespace Registry

/-- No address stands twice, and those retired are listed. -/
structure Parted (r : Registry) : Prop where
  pending : r.pending.keys.Nodup
  connected : r.connected.keys.Nodup
  retired : r.retired.keys.Nodup
  pending_connected : ∀ a, a ∈ r.pending.keys → a ∉ r.connected.keys
  pending_retired : ∀ a, a ∈ r.pending.keys → a ∉ r.retired.keys
  connected_retired : ∀ a, a ∈ r.connected.keys → a ∉ r.retired.keys
  order : r.retiredOrder.Nodup
  mem_order : ∀ a, a ∈ r.retiredOrder ↔ a ∈ r.retired.keys

/-- No address stands twice, and those retired are listed and no more than there is room for. -/
structure Tidy (r : Registry) : Prop extends r.Parted where
  length_order : r.retiredOrder.length ≤ r.retiredCapacity

theorem tidy_empty (retiredCapacity : Nat) : (empty retiredCapacity).Tidy where
  pending := .nil
  connected := .nil
  retired := .nil
  pending_connected := by simp [empty,Dict.keys]
  pending_retired := by simp [empty,Dict.keys]
  connected_retired := by simp [empty,Dict.keys]
  order := .nil
  mem_order := by simp [empty,Dict.keys]
  length_order := Nat.zero_le _

variable {r s : Registry} {a c : Address} {p : PeerId} {v : Retired}

theorem Tidy.alike (h : r.Tidy) (hs : r.Alike s) : s.Tidy where
  pending := by rw [hs.pending]; exact h.pending
  connected := by rw [hs.connected]; exact h.connected
  retired := by rw [hs.retired]; exact h.retired
  pending_connected := by rw [hs.pending,hs.connected]; exact h.pending_connected
  pending_retired := by rw [hs.pending,hs.retired]; exact h.pending_retired
  connected_retired := by rw [hs.connected,hs.retired]; exact h.connected_retired
  order := by rw [hs.retiredOrder]; exact h.order
  mem_order := by rw [hs.retiredOrder,hs.retired]; exact h.mem_order
  length_order := by rw [hs.retiredOrder,hs.retiredCapacity]; exact h.length_order

theorem filter_ne_of_not_mem {l : List Address} (h : a ∉ l) : l.filter (· ≠ a) = l := by
  refine List.filter_eq_self.mpr fun b hb => ?_
  rw [decide_eq_true_eq]
  rintro rfl
  exact h hb

theorem Tidy.enqueue_eq (h : r.Tidy) (a : Address) (p : PeerId) :
    r.enqueue a p = { r with
      pending := r.pending ++ [(a,p)]
      retired := r.retired.erase a
      retiredOrder := r.retiredOrder.filter (· ≠ a) } := by
  unfold enqueue
  split
  · rfl
  · rename_i hno
    have hkeys : a ∉ r.retired.keys := fun hm => hno (Dict.mem_keys_iff.mp hm)
    have horder : a ∉ r.retiredOrder := fun hm => hkeys ((h.mem_order a).mp hm)
    rw [Dict.erase_of_not_mem hkeys,filter_ne_of_not_mem horder]

theorem keys_concat (d : Dict Address PeerId) (a : Address) (p : PeerId) :
    (d ++ [(a,p)]).keys = d.keys ++ [a] := by
  simp [Dict.keys]

theorem Tidy.enqueue (h : r.Tidy) (hc : r.connected.get? a = none) (hp : r.pending.get? a = none)
    (p : PeerId) : (r.enqueue a p).Tidy := by
  have hnc := Dict.not_mem_keys_iff.mpr hc
  have hnp := Dict.not_mem_keys_iff.mpr hp
  rw [h.enqueue_eq]
  exact {
    pending := by
      rw [keys_concat]
      refine List.nodup_append.mpr ⟨h.pending,by simp,?_⟩
      rintro b hb e he rfl
      exact hnp (List.mem_singleton.mp he ▸ hb)
    connected := h.connected
    retired := Dict.nodup_erase h.retired a
    pending_connected := by
      intro b hb
      rw [keys_concat,List.mem_append,List.mem_singleton] at hb
      rcases hb with hb | rfl
      · exact h.pending_connected b hb
      · exact hnc
    pending_retired := by
      intro b hb hm
      obtain ⟨hne,hm⟩ := Dict.mem_keys_erase.mp hm
      rw [keys_concat,List.mem_append,List.mem_singleton] at hb
      rcases hb with hb | rfl
      · exact h.pending_retired b hb hm
      · exact hne rfl
    connected_retired := fun b hb hm => h.connected_retired b hb (Dict.mem_keys_erase.mp hm).2
    order := h.order.filter _
    mem_order := by
      intro b
      rw [Dict.mem_keys_erase,← h.mem_order b,List.mem_filter]
      simp [and_comm]
    length_order := Nat.le_trans (List.length_filter_le _ _) h.length_order }

theorem Tidy.accept (h : r.Tidy) (ha : r.accept = some (p,s)) : s.Tidy := by
  obtain ⟨a,rest,hpend,rfl⟩ := accept_eq_some_iff.mp ha
  have hkeys : r.pending.keys = a :: Dict.keys rest := by
    rw [hpend]
    rfl
  have hnd := h.pending
  rw [hkeys,List.nodup_cons] at hnd
  have hhead : a ∈ r.pending.keys := by
    rw [hkeys]
    exact List.mem_cons_self
  have htail : ∀ b, b ∈ Dict.keys rest → b ∈ r.pending.keys := by
    intro b hb
    rw [hkeys]
    exact List.mem_cons_of_mem _ hb
  exact {
    pending := hnd.2
    connected := Dict.nodup_insert h.connected a p
    retired := h.retired
    pending_connected := by
      intro b hb hm
      rcases Dict.mem_keys_insert.mp hm with rfl | hm
      · exact hnd.1 hb
      · exact h.pending_connected b (htail b hb) hm
    pending_retired := fun b hb => h.pending_retired b (htail b hb)
    connected_retired := by
      intro b hb
      rcases Dict.mem_keys_insert.mp hb with rfl | hb
      · exact h.pending_retired b hhead
      · exact h.connected_retired b hb
    order := h.order
    mem_order := h.mem_order
    length_order := h.length_order }

theorem Tidy.greets (h : r.Tidy) (hs : Greets r s) : s.Tidy := by
  induction hs with
  | none => exact h
  | next ha _ ih => exact ih ((h.accept ha).alike (alike_modify _ _ _))

theorem Tidy.drop (h : r.Tidy) (hd : r.removePending a = some (p,s)) : s.Tidy := by
  rw [removePending_eq_some hd]
  have hsub : (Dict.keys (r.pending.eraseP fun e => e.1 = a)).Sublist r.pending.keys :=
    List.eraseP_sublist.map _
  exact {
    pending := h.pending.sublist hsub
    connected := h.connected
    retired := h.retired
    pending_connected := fun b hb => h.pending_connected b (hsub.subset hb)
    pending_retired := fun b hb => h.pending_retired b (hsub.subset hb)
    connected_retired := h.connected_retired
    order := h.order
    mem_order := h.mem_order
    length_order := h.length_order }

theorem mem_drop_of_not_mem_take {α : Type} {l : List α} {n : Nat} {c : α} (h : c ∈ l)
    (hn : c ∉ l.take n) : c ∈ l.drop n := by
  rw [← List.take_append_drop n l,List.mem_append] at h
  exact h.resolve_left hn

theorem Parted.evict (h : r.Parted) : r.evict.Tidy := by
  have hsplit := h.order
  rw [← List.take_append_drop (r.retiredOrder.length - r.retiredCapacity) r.retiredOrder,
    List.nodup_append] at hsplit
  exact {
    pending := h.pending
    connected := h.connected
    retired := Dict.nodup_eraseAll h.retired _
    pending_connected := h.pending_connected
    pending_retired := fun b hb hm => h.pending_retired b hb (Dict.mem_keys_eraseAll.mp hm).2
    connected_retired := fun b hb hm => h.connected_retired b hb (Dict.mem_keys_eraseAll.mp hm).2
    order := hsplit.2.1
    mem_order := by
      intro b
      simp only [Registry.evict]
      rw [Dict.mem_keys_eraseAll,← h.mem_order b]
      constructor
      · intro hb
        exact ⟨fun ht => hsplit.2.2 b ht b hb rfl,List.mem_of_mem_drop hb⟩
      · rintro ⟨hnt,hb⟩
        exact mem_drop_of_not_mem_take hb hnt
    length_order := by
      simp only [Registry.evict,List.length_drop]
      omega }

theorem Tidy.not_mem_order (h : r.Tidy) (hc : r.connected.get? a = some p) :
    a ∉ r.retiredOrder := by
  rw [h.mem_order]
  exact h.connected_retired a (Dict.mem_keys_iff.mpr (by rw [hc]; rfl))

theorem Tidy.retiring (h : r.Tidy) (hc : r.connected.get? a = some p) (v : Retired) :
    (r.retiring a v).Tidy := by
  have hconn : a ∈ r.connected.keys := Dict.mem_keys_iff.mpr (by rw [hc]; rfl)
  refine Parted.evict {
    pending := h.pending
    connected := Dict.nodup_erase h.connected a
    retired := Dict.nodup_insert h.retired a v
    pending_connected := fun b hb hm => h.pending_connected b hb (Dict.mem_keys_erase.mp hm).2
    pending_retired := ?_
    connected_retired := ?_
    order := ?_
    mem_order := ?_ }
  · intro b hb hm
    rcases Dict.mem_keys_insert.mp hm with rfl | hm
    · exact h.pending_connected b hb hconn
    · exact h.pending_retired b hb hm
  · intro b hb hm
    obtain ⟨hne,hb⟩ := Dict.mem_keys_erase.mp hb
    rcases Dict.mem_keys_insert.mp hm with rfl | hm
    · exact hne rfl
    · exact h.connected_retired b hb hm
  · refine List.nodup_append.mpr ⟨h.order,by simp,?_⟩
    rintro b hb e he rfl
    exact h.not_mem_order hc (List.mem_singleton.mp he ▸ hb)
  · intro b
    rw [Dict.mem_keys_insert,List.mem_append,List.mem_singleton,h.mem_order b,or_comm]

theorem not_mem_take_one {α : Type} {l : List α} {c : α} : c ∉ l.take 1 ↔ l.head? ≠ some c := by
  cases l with
  | nil => simp
  | cons e l => simp [eq_comm]

/-- A mark is made, and if there is no room for it the first entry of the list goes with its mark. -/
theorem mem_keys_retiring (h : r.retiredOrder.length ≤ r.retiredCapacity) :
    c ∈ (r.retiring a v).retired.keys ↔ (c = a ∨ c ∈ r.retired.keys) ∧
      ¬ (r.retiredOrder.length = r.retiredCapacity ∧
        (r.retiredOrder ++ [a]).head? = some c) := by
  have hkeys : c ∈ (r.retiring a v).retired.keys ↔
      c ∉ (r.retiredOrder ++ [a]).take ((r.retiredOrder ++ [a]).length - r.retiredCapacity) ∧
        (c = a ∨ c ∈ r.retired.keys) :=
    Dict.mem_keys_eraseAll.trans (and_congr_right' Dict.mem_keys_insert)
  rw [hkeys,and_comm,List.length_append,List.length_singleton]
  refine and_congr_right' ?_
  by_cases hfull : r.retiredOrder.length = r.retiredCapacity
  · have hone : r.retiredOrder.length + 1 - r.retiredCapacity = 1 := by omega
    rw [hone,not_mem_take_one]
    simp [hfull]
  · have hzero : r.retiredOrder.length + 1 - r.retiredCapacity = 0 := by omega
    simp [hzero,hfull]

/-- There is never more than one mark too many, so only the oldest can go. -/
theorem Tidy.evicted (h : r.Tidy) (hc : c = a ∨ c ∈ r.retired.keys)
    (hgone : c ∉ (r.retiring a v).retired.keys) :
    r.retiredCapacity < (r.retiredOrder ++ [a]).length ∧
      (r.retiredOrder ++ [a]).head? = some c := by
  obtain ⟨hfull,hfirst⟩ := Decidable.byContradiction fun hstays =>
    hgone ((mem_keys_retiring h.length_order).mpr ⟨hc,hstays⟩)
  refine ⟨?_,hfirst⟩
  rw [List.length_append,List.length_singleton,hfull]
  exact Nat.lt_succ_self _

theorem Tidy.forget (h : r.Tidy) (p : PeerId) :
    (r.forgetDrained p).Tidy ∧ (r.forgetDrained p).retiredOrder = r.retiredOrder := by
  have hkeys : ∀ b, b ∈ (r.forgetDrained p).retired.keys ↔ b ∈ r.retired.keys :=
    fun _ => mem_keys_forgetDrained
  obtain ⟨marks,heq,hnodup,_⟩ := forgetDrained_eq r p
  rw [heq] at hkeys ⊢
  refine ⟨?_,rfl⟩
  exact {
    pending := h.pending
    connected := h.connected
    retired := hnodup h.retired
    pending_connected := h.pending_connected
    pending_retired := fun b hb hm => h.pending_retired b hb ((hkeys b).mp hm)
    connected_retired := fun b hb hm => h.connected_retired b hb ((hkeys b).mp hm)
    order := h.order
    mem_order := fun b => (h.mem_order b).trans (hkeys b).symm
    length_order := h.length_order }

end Registry

namespace Receiver

open Registry (Tidy)

variable {r : Receiver} {s : Registry} {m : Move} {a : Address}

theorem alike_enlist (r : Receiver) (x : Peer) : r.registry.Alike (r.registry.register x).2 :=
  ⟨rfl,rfl,rfl,rfl,rfl⟩

theorem Change.tidy (hs : Change r m s) (h : r.registry.Tidy) : s.Tidy := by
  cases hs with
  | rest hs hn => exact h.alike hs
  | enlist hm hf hk hc hp hs =>
    rw [hs]
    exact (h.alike (alike_enlist r _)).enqueue hc hp _
  | greet hs => exact h.greets hs
  | drop hs => exact h.drop hs
  | fall hm hx hc hs hn hy hcl hi => exact (h.retiring hc _).alike hs
  | finish hx hcl hu hs =>
    rw [hs]
    exact (h.forget _).1
  | shut hm hp hc hr ho hcap hn =>
    have hnone : ∀ {β : Type} (a : Address), a ∉ Dict.keys ([] : Dict Address β) := by
      intro β a hm
      cases hm
    exact {
      pending := by rw [hp]; exact .nil
      connected := by rw [hc]; exact .nil
      retired := by rw [hr]; exact .nil
      pending_connected := by rw [hp]; exact fun a ha => absurd ha (hnone a)
      pending_retired := by rw [hp]; exact fun a ha => absurd ha (hnone a)
      connected_retired := by rw [hc]; exact fun a ha => absurd ha (hnone a)
      order := by rw [ho]; exact .nil
      mem_order := by rw [ho,hr]; simp [Dict.keys]
      length_order := by rw [ho]; exact Nat.zero_le _ }

def latest (history : List Address) : List Address :=
  history.foldl (fun order a => order.filter (· ≠ a) ++ [a]) []

theorem latest_concat (history : List Address) (a : Address) :
    latest (history ++ [a]) = (latest history).filter (· ≠ a) ++ [a] := by
  rw [latest,List.foldl_append]
  rfl

/-- The addresses that a move retires: they were connected before it and are not after it. A receiver
that is closed retires nobody. -/
def retiredBy (r : Receiver) (m : Move) : List Address :=
  if m = .event .close then []
  else r.registry.connected.keys.filter fun a => a ∉ (r.make m).1.registry.connected.keys

/-- The addresses that moves in a row retire, the first one first. -/
def retirements : Receiver → List Move → List Address := tally retiredBy

theorem retiredBy_eq_nil
    (h : ∀ a ∈ r.registry.connected.keys, a ∈ (r.make m).1.registry.connected.keys) :
    r.retiredBy m = [] := by
  unfold retiredBy
  split
  · rfl
  · refine List.filter_eq_nil_iff.mpr fun a ha => ?_
    simp [h a ha]

theorem retiredBy_of_erase (hm : m ≠ .event .close) (hnd : r.registry.connected.keys.Nodup)
    (ha : a ∈ r.registry.connected.keys)
    (ht : (r.make m).1.registry.connected = r.registry.connected.erase a) :
    r.retiredBy m = [a] := by
  have hcongr : r.retiredBy m = r.registry.connected.keys.filter (· == a) := by
    rw [retiredBy,if_neg hm]
    refine List.filter_congr fun b hb => ?_
    rw [ht]
    simp [Dict.mem_keys_erase,hb,Bool.beq_eq_decide_eq]
  rw [hcongr,List.filter_beq,hnd.count,if_pos ha,List.replicate_one]

theorem Change.order (hs : Change r m (r.make m).1.registry) (h : r.registry.Tidy)
    {history : List Address} (ho : r.registry.retiredOrder.Sublist (latest history)) :
    (r.make m).1.registry.retiredOrder.Sublist
      (latest (history ++ r.retiredBy m)) := by
  have hless : (∀ a ∈ r.registry.connected.keys, a ∈ (r.make m).1.registry.connected.keys) →
      (r.make m).1.registry.retiredOrder.Sublist r.registry.retiredOrder →
      (r.make m).1.registry.retiredOrder.Sublist
        (latest (history ++ r.retiredBy m)) := by
    intro hk hsub
    rw [retiredBy_eq_nil hk,List.append_nil]
    exact hsub.trans ho
  have hsame : (∀ a ∈ r.registry.connected.keys, a ∈ (r.make m).1.registry.connected.keys) →
      (r.make m).1.registry.retiredOrder = r.registry.retiredOrder →
      (r.make m).1.registry.retiredOrder.Sublist
        (latest (history ++ r.retiredBy m)) :=
    fun hk he => hless hk (he ▸ .refl _)
  cases hs with
  | rest hs hn => exact hsame (fun a ha => hs.connected ▸ ha) hs.retiredOrder
  | enlist hm hf hk hc hp hs =>
    have heq := (h.alike (alike_enlist r _)).enqueue_eq _ _ ▸ hs
    refine hless (fun a ha => ?_) ?_
    · rw [heq]
      exact ha
    · rw [heq]
      exact List.filter_sublist
  | greet hs =>
    obtain ⟨_,ho',_,hk⟩ := hs.places
    exact hsame hk ho'
  | drop hs =>
    have heq := Registry.removePending_eq_some hs
    refine hsame (fun a ha => ?_) ?_
    · rw [heq]
      exact ha
    · rw [heq]
  | @fall p x y hm hx hc hs hn hy hcl hi =>
    have hconn : x.addr ∈ r.registry.connected.keys :=
      Dict.mem_keys_iff.mpr (by rw [hc]; rfl)
    have herase : (r.make m).1.registry.connected = r.registry.connected.erase x.addr :=
      hs.connected
    have hby : r.retiredBy m = [x.addr] :=
      retiredBy_of_erase (by rw [hm]; simp) h.connected hconn herase
    rw [hby,latest_concat,hs.retiredOrder]
    refine (List.drop_sublist _ _).trans (List.Sublist.append ?_ (.refl _))
    rw [← Registry.filter_ne_of_not_mem (h.not_mem_order hc)]
    exact ho.filter _
  | finish hx hcl hu hs =>
    refine hsame (fun a ha => ?_) ?_
    · rw [hs,Registry.connected_forgetDrained]
      exact ha
    · rw [hs,(h.forget _).2]
  | shut hm hp hc hr ho hcap hn =>
    rw [ho]
    exact List.nil_sublist _

/-- The ways in which the mark of the retired address `a` can go. -/
inductive Forgets (r : Receiver) (a : Address) (m : Move) : Prop
  | reconnected {raw : Bytes} {frame : Frame} (hm : m = .event (.datagram a raw))
      (hf : Frame.receive raw = .ok frame) (hk : frame.kind = .rcon)
  | closed (hm : m = .event .close)
  | evicted {p : PeerId} {x : Peer} (hm : m = .event (.tick p))
      (hx : r.registry.peers[p]? = some x) (hc : r.registry.connected.get? x.addr = some p)
      (hgone : (r.make m).1.registry.connected.get? x.addr = none)
      (hfull : r.registry.retiredCapacity < (r.registry.retiredOrder ++ [x.addr]).length)
      (hold : (r.registry.retiredOrder ++ [x.addr]).head? = some a)

/-- A mark that is gone after a move was forgotten in one of the three ways. -/
theorem Change.forgets (hs : Change r m (r.make m).1.registry) (h : r.registry.Tidy)
    (ha : a ∈ r.registry.retired.keys) (hgone : a ∉ (r.make m).1.registry.retired.keys) :
    Forgets r a m := by
  cases hs with
  | rest hs hn =>
    rw [hs.retired] at hgone
    exact absurd ha hgone
  | @enlist b raw frame hm hf hk hc hp hs =>
    have heq := (h.alike (alike_enlist r _)).enqueue_eq _ _ ▸ hs
    rw [heq] at hgone
    by_cases hab : a = b
    · rw [← hab] at hm
      exact .reconnected hm hf hk
    · exact absurd (Dict.mem_keys_erase.mpr ⟨hab,ha⟩) hgone
  | greet hs =>
    rw [hs.places.1] at hgone
    exact absurd ha hgone
  | drop hs =>
    rw [Registry.removePending_eq_some hs] at hgone
    exact absurd ha hgone
  | @fall p x y hm hx hc hs hn hy hcl hi =>
    rw [hs.retired] at hgone
    obtain ⟨hfull,hold⟩ := h.evicted (.inr ha) hgone
    refine .evicted hm hx hc ?_ hfull hold
    rw [hs.connected]
    show (r.registry.connected.erase x.addr).get? x.addr = none
    rw [Dict.get?_erase,if_pos rfl]
  | @finish p x hx hcl hu hs =>
    have hlist := (h.forget p).1.mem_order a
    rw [(h.forget p).2,h.mem_order a,← hs] at hlist
    exact absurd (hlist.mp ha) hgone
  | shut hm hp hc hr ho hcap hn => exact .closed hm

theorem tidy_start (settings : Settings) : (start settings).registry.Tidy :=
  Registry.tidy_empty _

theorem Tidy.play (h : r.registry.Tidy) (hs : r.Sound) (ms : List Move) :
    (r.play ms).1.registry.Tidy :=
  (chain_induct (P := fun t : Receiver => t.Sound ∧ t.registry.Tidy) ⟨hs,h⟩
    (fun _ ht m => ⟨ht.1.make m,(make_change ht.1 m).tidy ht.2⟩) ms).2

theorem order_play (h : r.registry.Tidy) (hs : r.Sound) (ms : List Move) {history : List Address}
    (ho : r.registry.retiredOrder.Sublist (latest history)) :
    (r.play ms).1.registry.retiredOrder.Sublist (latest (history ++ r.retirements ms)) := by
  induction ms generalizing r history with
  | nil =>
    rw [retirements,tally,List.append_nil]
    exact ho
  | cons m ms ih =>
    have hchange := make_change hs m
    rw [retirements,tally,← List.append_assoc]
    exact ih (hchange.tidy h) (hs.make m) (hchange.order h ho)

theorem Change.capacity (hs : Change r m s) :
    s.retiredCapacity = r.registry.retiredCapacity := by
  cases hs with
  | rest hs hn => exact hs.retiredCapacity
  | enlist hm hf hk hc hp hs =>
    rw [hs]
    exact Registry.retiredCapacity_enqueue _ _ _
  | greet hs => exact hs.places.2.2.1
  | drop hs => rw [Registry.removePending_eq_some hs]
  | fall hm hx hc hs hn hy hcl hi => exact hs.retiredCapacity
  | finish hx hcl hu hs => rw [hs,Registry.retiredCapacity_forgetDrained]
  | shut hm hp hc hr ho hcap hn => exact hcap

theorem capacity_play (hs : r.Sound) (ms : List Move) :
    (r.play ms).1.registry.retiredCapacity = r.registry.retiredCapacity :=
  (chain_induct (P := fun t : Receiver => t.Sound ∧
      t.registry.retiredCapacity = r.registry.retiredCapacity) ⟨hs,rfl⟩
    (fun _ ht m => ⟨ht.1.make m,(make_change ht.1 m).capacity.trans ht.2⟩) ms).2

/-- What always holds of the places of a receiver that has retired the addresses of a history. -/
structure Placed (settings : Settings) (r : Receiver) (history : List Address) : Prop where
  tidy : r.registry.Tidy
  capacity : r.registry.retiredCapacity = settings.retiredCapacity
  pending : ∀ a p, (a,p) ∈ r.registry.pending →
    ∃ x, r.registry.peers[p]? = some x ∧ x.addr = a
  connected : ∀ a p, r.registry.connected.get? a = some p →
    ∃ x, r.registry.peers[p]? = some x ∧ x.addr = a ∧ x.closed = false
  unread : ∀ a p, r.registry.retired.get? a = some (.unread p) →
    ∃ x, r.registry.peers[p]? = some x ∧ x.addr = a ∧ x.closed = true
  order : r.registry.retiredOrder.Sublist (latest history)
  forgets : ∀ m a, a ∈ r.registry.retired.keys → a ∉ (r.make m).1.registry.retired.keys →
    Forgets r a m

/-- Whatever happens to a receiver, every address keeps its one place, and the mark of a retired one
goes only for a reason. -/
theorem places_along_play (settings : Settings) (ms : List Move) :
    Placed settings ((start settings).play ms).1 ((start settings).retirements ms) := by
  have hsound := (sound_start settings).play ms
  have htidy := Tidy.play (tidy_start settings) (sound_start settings) ms
  have hnone : (start settings).registry.retiredOrder.Sublist (latest []) := .refl _
  exact {
    tidy := htidy
    capacity := capacity_play (sound_start settings) ms
    pending := by
      intro a p ha
      obtain ⟨x,hx,hadd,_⟩ := hsound.registry.pending a p ha
      exact ⟨x,hx,hadd⟩
    connected := hsound.registry.connected
    unread := hsound.registry.unread
    order := order_play (tidy_start settings) (sound_start settings) ms hnone
    forgets := fun m a => (make_change hsound m).forgets htidy }

/-- An address connects as the record `p`, asks to close and is torn down. -/
def visit (a : Address) (p : PeerId) : List Move :=
  [.event (.datagram a (Frame.encode ⟨.rcon,0,0,[]⟩)),.event .acceptOne,
    .event (.datagram a (Frame.encode ⟨.rcls,0,0,[]⟩)),.event (.tick p)]

/-- With room for one mark the second address to be retired drives out the first. -/
example :
    let first : Address := ⟨.localhost,0,4001⟩
    let second : Address := ⟨.localhost,0,4002⟩
    let r := start ⟨64,.ofMillis 1500,.ofMillis 500,1,true⟩
    r.retirements (visit first 0 ++ visit second 1) = [first,second] ∧
      (r.play (visit first 0 ++ visit second 1)).1.registry.retired = [(second,.drained)] := by
  decide +kernel

end Receiver
end ReliableTransport
