import Mathlib.Data.List.Perm.Subperm
import ReliableTransport.Proofs.Newest

/-! Everything that can be asked of the records of a receiver, in any order. Records are made and put
behind those waiting, one of them twice or several of one address; they are accepted, given up,
retired, read to their ends and taken out, and whoever holds one changes it. An address can then be
listed twice among the retired, and be listed without a mark. Still every mark is listed and every
record stands under its own address (`Orderly`), so no use makes a receiver remember more than there
is room for, and a mark goes for one of three reasons (`memory_along_run`). -/
namespace ReliableTransport
namespace Registry

inductive Request
  | register (x : Peer)
  | alter (p : PeerId) (x : Peer)
  | enqueue (p : PeerId)
  | accept
  | removePending (a : Address)
  | retire (a : Address)
  | forgetDrained (p : PeerId)
  | drain
  deriving DecidableEq

inductive Response
  | done
  | record (p : Option PeerId)
  | drained (pending connected : List PeerId)
  deriving DecidableEq

/-- What was asked and answered, the oldest first. -/
abbrev Log := List (Request × Response)

/-- Answer a request to move a record, given the record and all of them after it was moved. -/
def moved (r : Registry) (q : Request) : Option (PeerId × Registry) → Registry × Log
  | none => (r,[(q,.record none)])
  | some (p,s) => (s,[(q,.record (some p))])

def serve (r : Registry) (q : Request) : Registry × Log :=
  match q with
  | .register x =>
    let (p,s) := r.register x
    (s,[(q,.record (some p))])
  | .alter p x => (r.modify p fun y => { x with addr := y.addr },[(q,.done)])
  | .enqueue p =>
    match r.peers[p]? with
    | none => (r,[(q,.done)])
    | some x => (r.enqueue x.addr p,[(q,.done)])
  | .accept => r.moved q r.accept
  | .removePending a => r.moved q (r.removePending a)
  | .retire a => r.moved q (r.retire a)
  | .forgetDrained p => (r.forgetDrained p,[(q,.done)])
  | .drain =>
    let ((pending,connected),s) := r.drain
    (s,[(q,.drained pending connected)])

namespace Log

/-- The addresses that were retired, the first one first. -/
def retirements (log : Log) : List Address :=
  log.filterMap fun
    | (.retire a,.record (some _)) => some a
    | _ => none

theorem retirements_append (log more : Log) :
    retirements (log ++ more) = retirements log ++ retirements more :=
  List.filterMap_append

end Log

open Log

variable {r s : Registry} {a b : Address} {p : PeerId} {q : Request}

inductive Unmarks (r : Registry) (a : Address) : Request → Prop
  | enqueue {p : PeerId} (hp : r.home p = some a) : Unmarks r a (.enqueue p)
  /-- One more address is retired, there is no room for it, and the first entry is of this one. -/
  | retire {b : Address} {p : PeerId} (hc : r.connected.get? b = some p)
      (hfull : r.retiredOrder.length = r.retiredCapacity)
      (hfirst : (r.retiredOrder ++ [b]).head? = some a) : Unmarks r a (.retire b)
  | drain : Unmarks r a .drain

/-- The marks are as they were, and who is connected was connected or waiting. -/
structure Keeps (r s : Registry) : Prop where
  home : ∀ p a, r.home p = some a → s.home p = some a
  pending : s.pending ⊆ r.pending
  connected : ∀ a p, s.connected.get? a = some p →
    r.connected.get? a = some p ∨ (a,p) ∈ r.pending
  retired : s.retired = r.retired
  retiredOrder : s.retiredOrder = r.retiredOrder
  retiredCapacity : s.retiredCapacity = r.retiredCapacity

theorem keeps_refl (r : Registry) : Keeps r r :=
  ⟨fun _ _ => id,List.Subset.refl _,fun _ _ => .inl,rfl,rfl,rfl⟩

theorem keeps_register (r : Registry) (x : Peer) : Keeps r (r.register x).2 where
  home := by
    intro p a hp
    obtain ⟨y,hy,hadd⟩ := home_eq_some_iff.mp hp
    have hlt := (List.getElem?_eq_some_iff.mp hy).1
    exact home_eq_some_iff.mpr ⟨y,(List.getElem?_append_left hlt).trans hy,hadd⟩
  pending := List.Subset.refl _
  connected := fun _ _ => .inl
  retired := rfl
  retiredOrder := rfl
  retiredCapacity := rfl

theorem keeps_modify (r : Registry) (p : PeerId) {f : Peer → Peer} (hf : ∀ x, (f x).addr = x.addr) :
    Keeps r (r.modify p f) :=
  { keeps_refl r with home := fun q _ hq => (home_modify hf p q).trans hq }

theorem keeps_accept (ha : r.accept = some (p,s)) : Keeps r s := by
  obtain ⟨a,rest,hpend,rfl⟩ := accept_eq_some_iff.mp ha
  have hsame := keeps_modify r p (f := fun peer => { peer with silence := peer.silence.reset })
    fun _ => rfl
  refine { hsame with pending := ?_, connected := ?_ }
  · rw [hpend]
    exact List.subset_cons_self _ _
  · intro b q hq
    rw [Dict.get?_insert] at hq
    split at hq
    · rename_i hb
      obtain rfl := Option.some.inj hq
      exact .inr (by rw [hpend,hb]; exact List.mem_cons_self)
    · exact .inl hq

theorem keeps_removePending (hd : r.removePending a = some (p,s)) : Keeps r s := by
  rw [removePending_eq_some hd]
  exact { keeps_refl r with pending := List.eraseP_subset }

inductive Effect (r : Registry) : Request → Registry → List Address → Prop
  | keep {q : Request} {s : Registry} (hs : Keeps r s) (hstays : ∀ a, ¬ Unmarks r a q)
      (hnone : ∀ a, q = .retire a → a ∉ r.connected.keys) : Effect r q s []
  | enqueue {a : Address} {p : PeerId} (hp : r.home p = some a) :
      Effect r (.enqueue p) (r.enqueue a p) []
  | retire {a : Address} {p : PeerId} (hc : r.connected.get? a = some p) :
      Effect r (.retire a) (r.retiring a (r.relic p)) [a]
  | forgetDrained (p : PeerId) : Effect r (.forgetDrained p) (r.forgetDrained p) []
  | drain : Effect r .drain r.drain.2 []

theorem serve_effect (r : Registry) (q : Request) :
    Effect r q (r.serve q).1 (retirements (r.serve q).2) := by
  cases q with
  | register x => exact .keep (keeps_register r x) (by rintro _ ⟨⟩) (by rintro _ ⟨⟩)
  | alter p x => exact .keep (keeps_modify r p fun _ => rfl) (by rintro _ ⟨⟩) (by rintro _ ⟨⟩)
  | enqueue p =>
    rw [serve]
    cases hx : r.peers[p]? with
    | none =>
      refine .keep (keeps_refl r) ?_ (by rintro _ ⟨⟩)
      rintro a ⟨hp⟩
      simp [home,hx] at hp
    | some x => exact .enqueue (home_eq_some_iff.mpr ⟨x,hx,rfl⟩)
  | accept =>
    rw [serve]
    cases ha : r.accept with
    | none => exact .keep (keeps_refl r) (by rintro _ ⟨⟩) (by rintro _ ⟨⟩)
    | some e => exact .keep (keeps_accept ha) (by rintro _ ⟨⟩) (by rintro _ ⟨⟩)
  | removePending a =>
    rw [serve]
    cases hd : r.removePending a with
    | none => exact .keep (keeps_refl r) (by rintro _ ⟨⟩) (by rintro _ ⟨⟩)
    | some e => exact .keep (keeps_removePending hd) (by rintro _ ⟨⟩) (by rintro _ ⟨⟩)
  | retire a =>
    rw [serve]
    cases hc : r.connected.get? a with
    | none =>
      rw [Registry.retire,hc]
      refine .keep (keeps_refl r) ?_ ?_
      · rintro b (_ | ⟨hb,_,_⟩)
        rw [hc] at hb
        cases hb
      · rintro b ⟨⟩
        exact Dict.not_mem_keys_iff.mpr hc
    | some p =>
      rw [retire_eq_retiring hc]
      exact .retire hc
  | forgetDrained p => exact .forgetDrained p
  | drain => exact .drain

variable {as : List Address}

/-- The list only gets an entry when an address is retired, and at its end. -/
theorem Effect.order (h : Effect r q s as) : s.retiredOrder.Sublist (r.retiredOrder ++ as) := by
  cases h with
  | keep hs _ _ =>
    rw [hs.retiredOrder]
    exact List.sublist_append_left _ _
  | enqueue hp =>
    rw [List.append_nil]
    exact retiredOrder_enqueue r _ _
  | retire hc => exact List.drop_sublist _ _
  | forgetDrained p =>
    rw [retiredOrder_forgetDrained]
    exact List.sublist_append_left _ _
  | drain => exact List.nil_sublist _

theorem Effect.capacity (h : Effect r q s as) : s.retiredCapacity = r.retiredCapacity := by
  cases h with
  | keep hs _ _ => exact hs.retiredCapacity
  | enqueue hp => exact retiredCapacity_enqueue r _ _
  | retire hc => rfl
  | forgetDrained p => exact retiredCapacity_forgetDrained r p
  | drain => rfl

/-- Every record stands under its own address, and every mark is listed, with no more entries than
there is room for. -/
structure Orderly (r : Registry) : Prop where
  pending : ∀ a p, (a,p) ∈ r.pending → r.home p = some a
  connected : ∀ a p, r.connected.get? a = some p → r.home p = some a
  unread : ∀ a p, r.retired.get? a = some (.unread p) → r.home p = some a
  retired : r.retired.keys.Nodup
  listed : ∀ a ∈ r.retired.keys, a ∈ r.retiredOrder
  room : r.retiredOrder.length ≤ r.retiredCapacity

theorem orderly_empty (retiredCapacity : Nat) : (empty retiredCapacity).Orderly where
  pending := nofun
  connected := nofun
  unread := nofun
  retired := .nil
  listed := nofun
  room := Nat.zero_le _

theorem orderly_drain (r : Registry) : r.drain.2.Orderly where
  pending := nofun
  connected := nofun
  unread := nofun
  retired := .nil
  listed := nofun
  room := Nat.zero_le _

namespace Orderly

theorem keeps (h : r.Orderly) (hs : Keeps r s) : s.Orderly where
  pending := fun a p hp => hs.home p a (h.pending a p (hs.pending hp))
  connected := fun a p hc =>
    hs.home p a ((hs.connected a p hc).elim (h.connected a p) (h.pending a p))
  unread := fun a p hu => hs.home p a (h.unread a p (hs.retired ▸ hu))
  retired := hs.retired ▸ h.retired
  listed := by
    rw [hs.retired,hs.retiredOrder]
    exact h.listed
  room := by
    rw [hs.retiredOrder,hs.retiredCapacity]
    exact h.room

theorem enqueue (h : r.Orderly) (hp : r.home p = some a) : (r.enqueue a p).Orderly where
  pending := by
    intro b q hm
    rw [home_enqueue]
    rw [pending_enqueue,List.mem_append,List.mem_singleton] at hm
    rcases hm with hm | hm
    · exact h.pending b q hm
    · obtain ⟨rfl,rfl⟩ := Prod.mk.inj hm
      exact hp
  connected := by
    rw [connected_enqueue]
    intro b q hc
    rw [home_enqueue,h.connected b q hc]
  unread := by
    intro b q hu
    rw [home_enqueue,h.unread b q (retired_enqueue hu).2]
  retired := by
    rw [retired_enqueue_eq]
    exact Dict.nodup_erase h.retired a
  listed := by
    rw [retired_enqueue_eq]
    intro b hb
    obtain ⟨hne,hb⟩ := Dict.mem_keys_erase.mp hb
    exact mem_retiredOrder_enqueue (h.listed b hb) hne p
  room := by
    rw [retiredCapacity_enqueue]
    exact Nat.le_trans (retiredOrder_enqueue r a p).length_le h.room

/-- If an address is listed twice its mark goes with the first entry, and the second one stays. -/
theorem retiring (h : r.Orderly) (hc : r.connected.get? a = some p) :
    (r.retiring a (r.relic p)).Orderly where
  pending := h.pending
  connected := by
    intro b q hb
    have hb : (r.connected.erase a).get? b = some q := hb
    rw [Dict.get?_erase] at hb
    split at hb
    · cases hb
    · exact h.connected b q hb
  unread := by
    intro b q hu
    rcases retired_retiring hu with ⟨rfl,hv⟩ | hu
    · rw [relic_eq_unread hv.symm]
      exact h.connected b p hc
    · exact h.unread b q hu
  retired := Dict.nodup_eraseAll (Dict.nodup_insert h.retired a _) _
  listed := by
    intro b hb
    obtain ⟨hkept,hb⟩ := Dict.mem_keys_eraseAll.mp hb
    have hb : b ∈ r.retiredOrder ++ [a] := by
      rw [List.mem_append,List.mem_singleton,or_comm]
      exact (Dict.mem_keys_insert.mp hb).imp_right (h.listed b)
    exact mem_drop_of_not_mem_take hb hkept
  room := by
    show ((r.retiredOrder ++ [a]).drop
      ((r.retiredOrder ++ [a]).length - r.retiredCapacity)).length ≤ r.retiredCapacity
    rw [List.length_drop]
    omega

theorem forgetDrained (h : r.Orderly) (p : PeerId) : (r.forgetDrained p).Orderly := by
  have hkeys : ∀ a, a ∈ (r.forgetDrained p).retired.keys ↔ a ∈ r.retired.keys :=
    fun _ => mem_keys_forgetDrained
  obtain ⟨marks,heq,hnodup,hmarks⟩ := forgetDrained_eq r p
  rw [heq] at hkeys ⊢
  exact {
    pending := h.pending
    connected := h.connected
    unread := by
      intro a q hu
      have hu : marks.get? a = some (.unread q) := hu
      rw [hmarks] at hu
      split at hu
      · cases hu
      · exact h.unread a q hu
    retired := hnodup h.retired
    listed := fun a ha => h.listed a ((hkeys a).mp ha)
    room := h.room }

theorem effect (h : r.Orderly) (he : Effect r q s as) : s.Orderly := by
  cases he with
  | keep hs _ _ => exact h.keeps hs
  | enqueue hp => exact h.enqueue hp
  | retire hc => exact h.retiring hc
  | forgetDrained p => exact h.forgetDrained p
  | drain => exact orderly_drain r

theorem length_retired (h : r.Orderly) : r.retired.length ≤ r.retiredOrder.length := by
  have hsub := (h.retired.subperm h.listed).length_le
  rwa [Dict.keys,List.length_map] at hsub

/-- The marked addresses after a request are those before it and the one that it retires, but for
those whose mark goes with it. -/
theorem mem_keys_effect (h : r.Orderly) (he : Effect r q s as) (a : Address) :
    a ∈ s.retired.keys ↔
      (a ∈ r.retired.keys ∨ q = .retire a ∧ a ∈ r.connected.keys) ∧ ¬ Unmarks r a q := by
  cases he with
  | keep hs hstays hnone =>
    rw [hs.retired,and_iff_left (hstays a),or_iff_left fun hq => hnone a hq.1 hq.2]
  | @enqueue b p hp =>
    have hgoes : Unmarks r a (.enqueue p) ↔ a = b := by
      constructor
      · rintro ⟨ha⟩
        exact Option.some.inj (ha.symm.trans hp)
      · rintro rfl
        exact .enqueue hp
    simp [retired_enqueue_eq,Dict.mem_keys_erase,hgoes,and_comm]
  | @retire b p hc =>
    have hgoes : Unmarks r a (.retire b) ↔ r.retiredOrder.length = r.retiredCapacity ∧
        (r.retiredOrder ++ [b]).head? = some a :=
      ⟨fun | .retire _ hfull hfirst => ⟨hfull,hfirst⟩,
        fun ⟨hfull,hfirst⟩ => .retire hc hfull hfirst⟩
    rw [mem_keys_retiring h.room,hgoes]
    refine and_congr_left' ?_
    constructor
    · rintro (rfl | ha)
      · exact .inr ⟨rfl,Dict.mem_keys_iff.mpr (by rw [hc]; rfl)⟩
      · exact .inl ha
    · rintro (ha | ⟨hq,_⟩)
      · exact .inr ha
      · exact .inl (Request.retire.inj hq).symm
  | forgetDrained p =>
    rw [mem_keys_forgetDrained,and_iff_left nofun,or_iff_left nofun]
  | drain => exact ⟨nofun,fun hn => absurd .drain hn.2⟩

/-- A record is forgotten in its own mark, since it can be in no other. -/
theorem forgets (h : r.Orderly) (p : PeerId) :
    ∃ marks, r.forgetDrained p = { r with retired := marks } ∧
      ∀ a, marks.get? a =
        if r.retired.get? a = some (.unread p) then some .drained else r.retired.get? a := by
  obtain ⟨marks,heq,-,hmarks⟩ := forgetDrained_eq r p
  refine ⟨marks,heq,fun a => ?_⟩
  rw [hmarks]
  by_cases hu : r.retired.get? a = some (.unread p)
  · rw [if_pos ⟨h.unread a p hu,hu⟩,if_pos hu]
  · rw [if_neg fun hown => hu hown.2,if_neg hu]

end Orderly

theorem Orderly.runs (h : r.Orderly) (requests : List Request) :
    (chain serve r requests).1.Orderly :=
  chain_induct h (fun t ht q => ht.effect (serve_effect t q)) requests

theorem capacity_runs (r : Registry) (requests : List Request) :
    (chain serve r requests).1.retiredCapacity = r.retiredCapacity :=
  chain_induct (P := fun t : Registry => t.retiredCapacity = r.retiredCapacity) rfl
    (fun t ht q => (serve_effect t q).capacity.trans ht) requests

theorem order_runs (r : Registry) (requests : List Request) :
    (chain serve r requests).1.retiredOrder.Sublist
      (r.retiredOrder ++ retirements (chain serve r requests).2) := by
  induction requests generalizing r with
  | nil => exact List.sublist_append_left _ _
  | cons q requests ih =>
    rw [chain_cons,retirements_append,← List.append_assoc]
    exact (ih (r.serve q).1).trans ((serve_effect r q).order.append_right _)

/-- What is remembered of those retired, with room for `capacity` of them, after the requests of a
log and after the one that comes next. -/
structure Remembers (capacity : Nat) (r : Registry) (log : Log) : Prop where
  allowed : r.retiredCapacity = capacity
  order : r.retiredOrder.length ≤ capacity
  listed : ∀ a ∈ r.retired.keys, a ∈ r.retiredOrder
  nodup : r.retired.keys.Nodup
  marks : r.retired.length ≤ capacity
  history : r.retiredOrder.Sublist (retirements log)
  /-- Who is retired is marked, and a mark stays until it goes for one of three reasons. -/
  marked : ∀ q a, a ∈ (r.serve q).1.retired.keys ↔
    (a ∈ r.retired.keys ∨ q = .retire a ∧ a ∈ r.connected.keys) ∧ ¬ Unmarks r a q
  /-- Forgetting a record changes nothing but the mark that holds it, so that a mark that holds
  another record is as it was. -/
  forgets : ∀ p, ∃ marks, r.forgetDrained p = { r with retired := marks } ∧
    ∀ a, marks.get? a =
      if r.retired.get? a = some (.unread p) then some .drained else r.retired.get? a

/-- However the records are used, no more is remembered of those retired than there is room for. -/
theorem memory_along_run (capacity : Nat) (requests : List Request) :
    Remembers capacity (chain serve (empty capacity) requests).1
      (chain serve (empty capacity) requests).2 := by
  have horderly := (orderly_empty capacity).runs requests
  have hcapacity := capacity_runs (empty capacity) requests
  have horder := horderly.room
  rw [hcapacity] at horder
  exact {
    allowed := hcapacity
    order := horder
    listed := horderly.listed
    nodup := horderly.retired
    marks := Nat.le_trans horderly.length_retired horder
    history := order_runs (empty capacity) requests
    marked := fun q a => horderly.mem_keys_effect (serve_effect _ q) a
    forgets := horderly.forgets }

/-- Two records of one address are retired, one after the other, and then one of another address: the
first entry goes with the mark of its address, whose second entry stays without one. -/
example :
    let first : Address := ⟨.localhost,0,4001⟩
    let second : Address := ⟨.localhost,0,4002⟩
    let record (a : Address) : Request := .register (.start a 0 64 .zero)
    let r := (chain serve (empty 2) [record first,record first,record second,.enqueue 0,.enqueue 1,
      .enqueue 2,.accept,.retire first,.accept,.retire first,.accept,.retire second]).1
    r.retiredOrder = [first,second] ∧ r.retired = [(second,.drained)] := by
  decide +kernel

end Registry
end ReliableTransport
