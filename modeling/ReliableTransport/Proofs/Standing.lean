import ReliableTransport.Proofs.Answers
import ReliableTransport.Proofs.Integrity

/-! How what is seen of an address changes. Every change is along one of a few edges, each with a
cause of its own (`Edge`), and whatever has such a cause does change (`make_edge`). An address
stands once at most, so a peer that asks again while it waits or is connected finds its one record
as it was. -/
namespace ReliableTransport
namespace Registry

variable {r s : Registry} {a b : Address} {p : PeerId} {v : Retired}

theorem state_eq (r : Registry) (a : Address) :
    r.state a =
      if a ∈ r.connected.keys then .connected
      else if a ∈ r.pending.keys then .pending
      else if a ∈ r.retired.keys then .closed
      else .unseen := by
  simp only [state,Dict.mem_keys_iff]

theorem state_congr (hc : a ∈ s.connected.keys ↔ a ∈ r.connected.keys)
    (hp : a ∈ s.pending.keys ↔ a ∈ r.pending.keys)
    (hr : a ∈ s.retired.keys ↔ a ∈ r.retired.keys) : s.state a = r.state a := by
  simp only [state_eq,hc,hp,hr]

theorem state_eq_connected_iff : r.state a = .connected ↔ a ∈ r.connected.keys := by
  rw [state_eq]
  by_cases hc : a ∈ r.connected.keys
  · simp [hc]
  · by_cases hp : a ∈ r.pending.keys <;> by_cases hr : a ∈ r.retired.keys <;> simp [hc,hp,hr]

theorem Parted.state_eq_pending_iff (h : r.Parted) :
    r.state a = .pending ↔ a ∈ r.pending.keys := by
  rw [state_eq]
  by_cases hp : a ∈ r.pending.keys
  · simp [hp,h.pending_connected a hp]
  · by_cases hc : a ∈ r.connected.keys <;> by_cases hr : a ∈ r.retired.keys <;> simp [hc,hp,hr]

theorem Parted.state_eq_closed_iff (h : r.Parted) :
    r.state a = .closed ↔ a ∈ r.retired.keys := by
  have hc : a ∈ r.retired.keys → a ∉ r.connected.keys := fun hr hc => h.connected_retired a hc hr
  have hp : a ∈ r.retired.keys → a ∉ r.pending.keys := fun hr hp => h.pending_retired a hp hr
  rw [state_eq]
  by_cases hr : a ∈ r.retired.keys
  · simp [hr,hc hr,hp hr]
  · by_cases hc : a ∈ r.connected.keys <;> by_cases hp : a ∈ r.pending.keys <;> simp [hc,hp,hr]

def places (r : Registry) (a : Address) : Nat :=
  r.pending.keys.count a + r.connected.keys.count a + r.retired.keys.count a

/-- An address of which anything is seen stands in one place, and there once. -/
theorem Parted.places_eq (h : r.Parted) (a : Address) :
    r.places a = if r.state a = .unseen then 0 else 1 := by
  rw [places,h.pending.count,h.connected.count,h.retired.count,state_eq]
  by_cases hp : a ∈ r.pending.keys
  · simp [hp,h.pending_connected a hp,h.pending_retired a hp]
  · by_cases hc : a ∈ r.connected.keys
    · simp [hp,hc,h.connected_retired a hc]
    · by_cases hr : a ∈ r.retired.keys <;> simp [hp,hc,hr]

theorem Current.unique (h : r.Current) {q : PeerId} (hp : r.Found a p) (hq : r.Found a q) :
    p = q := by
  obtain ⟨x,hx,hxa,hnewer⟩ := h.newest a p hp
  obtain ⟨y,hy,hya,hnewer'⟩ := h.newest a q hq
  rcases Nat.lt_trichotomy p q with hlt | heq | hlt
  · exact absurd hya (hnewer q y hlt hy)
  · exact heq
  · exact absurd hxa (hnewer' p x hlt hx)

theorem Alike.state (h : r.Alike s) (a : Address) : s.state a = r.state a := by
  simp only [Registry.state,h.connected,h.pending,h.retired]

theorem Tidy.state_enqueue (h : r.Tidy) (hc : r.connected.get? b = none) (a : Address)
    (p : PeerId) : (r.enqueue b p).state a = if a = b then .pending else r.state a := by
  have hmem : ∀ c, c ∈ (r.pending ++ [(b,p)]).keys ↔ c ∈ r.pending.keys ∨ c = b := by
    simp [keys_concat]
  rw [h.enqueue_eq]
  split
  · rename_i hab
    subst hab
    simp [state_eq,hmem,Dict.not_mem_keys_iff.mpr hc]
  · rename_i hab
    refine state_congr .rfl ?_ ?_
    · simp [hmem,hab]
    · exact (Dict.mem_keys_erase.trans (and_iff_right hab))

theorem mem_keys_eraseP (d : Dict Address PeerId) (hab : a ≠ b) :
    a ∈ Dict.keys (d.eraseP fun e => e.1 = b) ↔ a ∈ d.keys := by
  simp only [Dict.keys,List.mem_map]
  refine exists_congr fun e => and_congr_left fun he => ?_
  exact List.mem_eraseP_of_neg (by simpa [he] using hab)

theorem not_mem_keys_eraseP {d : Dict Address PeerId} (hd : d.keys.Nodup) (b : Address) :
    b ∉ Dict.keys (d.eraseP fun e => e.1 = b) := by
  rw [Dict.eraseP_eq_erase hd]
  exact fun hb => (Dict.mem_keys_erase.mp hb).1 rfl

theorem Tidy.state_drop (h : r.Tidy) (hd : r.removePending b = some (p,s)) (a : Address) :
    s.state a = if a = b then .unseen else r.state a := by
  have hb : b ∈ r.pending.keys := by
    unfold removePending at hd
    split at hd
    · cases hd
    · rename_i q hq
      exact Dict.mem_keys_iff.mpr (by rw [hq]; rfl)
  rw [removePending_eq_some hd]
  split
  · rename_i hab
    subst hab
    simp [state_eq,not_mem_keys_eraseP h.pending a,h.pending_connected a hb,
      h.pending_retired a hb]
  · rename_i hab
    exact state_congr .rfl (mem_keys_eraseP _ hab) .rfl

theorem state_accept (ha : r.accept = some (p,s)) (a : Address) :
    s.state a = if r.pending.keys.head? = some a then .connected else r.state a := by
  obtain ⟨b,rest,hpend,rfl⟩ := accept_eq_some_iff.mp ha
  have hkeys : r.pending.keys = b :: Dict.keys rest := by
    rw [hpend]
    rfl
  rw [hkeys,List.head?_cons]
  split
  · rename_i hb
    exact state_eq_connected_iff.mpr (Dict.mem_keys_insert.mpr (.inl (Option.some.inj hb).symm))
  · rename_i hb
    have hab : a ≠ b := fun hab => hb (by rw [hab])
    refine state_congr ?_ ?_ .rfl
    · exact Dict.mem_keys_insert.trans (or_iff_right hab)
    · rw [hkeys,List.mem_cons]
      exact (or_iff_right hab).symm

theorem Tidy.mem_retired_retiring (h : r.Tidy) (hc : r.connected.get? b = some p) (v : Retired)
    (c : Address) :
    c ∈ (r.retiring b v).retired.keys ↔
      if c = b then r.retiredCapacity ≠ 0
      else c ∈ r.retired.keys ∧
        ¬ (r.retiredOrder.length = r.retiredCapacity ∧ r.retiredOrder.head? = some c) := by
  rw [mem_keys_retiring h.length_order]
  cases ho : r.retiredOrder with
  | nil =>
    by_cases hcb : c = b
    · simp [hcb,eq_comm]
    · simp [hcb,Ne.symm hcb]
  | cons d ds =>
    have hdb : d ≠ b := fun hd => h.not_mem_order hc (by simp [ho,hd])
    by_cases hcb : c = b
    · have hlen := h.length_order
      rw [ho,List.length_cons] at hlen
      simp [hcb,hdb,Nat.ne_of_gt (Nat.lt_of_lt_of_le (Nat.succ_pos _) hlen)]
    · simp [hcb]

theorem Tidy.state_retiring (h : r.Tidy) (hc : r.connected.get? b = some p) (v : Retired)
    (a : Address) :
    (r.retiring b v).state a =
      if a = b then if r.retiredCapacity = 0 then .unseen else .closed
      else if r.retiredOrder.length = r.retiredCapacity ∧ r.retiredOrder.head? = some a then .unseen
      else r.state a := by
  have hconn : b ∈ r.connected.keys := Dict.mem_keys_iff.mpr (by rw [hc]; rfl)
  have hret := h.mem_retired_retiring hc v a
  have herase : a ∈ (r.retiring b v).connected.keys ↔ a ≠ b ∧ a ∈ r.connected.keys :=
    Dict.mem_keys_erase
  have hpend : (r.retiring b v).pending = r.pending := rfl
  by_cases hab : a = b
  · subst hab
    have hwait : a ∉ r.pending.keys := fun hp => h.pending_connected a hp hconn
    rw [if_pos rfl] at hret
    by_cases hcap : r.retiredCapacity = 0 <;> simp [state_eq,herase,hpend,hret,hwait,hcap]
  · rw [if_neg hab] at hret ⊢
    by_cases hold : r.retiredOrder.length = r.retiredCapacity ∧ r.retiredOrder.head? = some a
    · have hmem : a ∈ r.retired.keys := (h.mem_order a).mp (List.mem_of_mem_head? hold.2)
      have hnc : a ∉ r.connected.keys := fun hm => h.connected_retired a hm hmem
      have hnp : a ∉ r.pending.keys := fun hm => h.pending_retired a hm hmem
      simp [state_eq,herase,hpend,hret,hnc,hnp,hold]
    · rw [if_neg hold]
      refine state_congr (herase.trans (and_iff_right hab)) .rfl ?_
      exact hret.trans (and_iff_left hold)

theorem state_forgetDrained (r : Registry) (p : PeerId) (a : Address) :
    (r.forgetDrained p).state a = r.state a := by
  refine state_congr ?_ ?_ mem_keys_forgetDrained
  · rw [connected_forgetDrained]
  · rw [pending_forgetDrained]

theorem Greets.eq_of_pending (h : Greets r s) (hp : r.pending = []) : s = r := by
  cases h with
  | none => rfl
  | next ha _ =>
    obtain ⟨_,_,hpend,_⟩ := accept_eq_some_iff.mp ha
    rw [hp] at hpend
    cases hpend

theorem Greets.state (h : Greets r s) (ht : r.Tidy) (hs : s.pending = []) (a : Address) :
    s.state a = if r.state a = .pending then .connected else r.state a := by
  induction h with
  | @none r =>
    have hno : ¬ r.state a = .pending := by
      rw [ht.state_eq_pending_iff,hs]
      simp [Dict.keys]
    rw [if_neg hno]
  | @next r u t p ha hg ih =>
    have halike := alike_modify u p fun peer => { peer with checking := true }
    rw [ih ((ht.accept ha).alike halike) hs,halike.state,state_accept ha]
    split
    · rename_i hhead
      rw [if_pos (ht.state_eq_pending_iff.mpr (List.mem_of_mem_head? hhead)),if_neg (by simp)]
    · rfl

structure Vacant (r : Registry) : Prop where
  pending : r.pending = []
  connected : r.connected = []
  retired : r.retired = []

theorem Vacant.state (h : r.Vacant) (a : Address) : r.state a = .unseen := by
  simp [Registry.state,h.pending,h.connected,h.retired]

theorem vacant_shut (r : Registry) : r.shut.Vacant := by
  obtain ⟨hc,hp,hr⟩ := foldl_modify_places r.drain.1.2 .teardown r.drain.2
  exact ⟨hp,hc,hr⟩

end Registry

namespace Receiver

open Registry (Vacant Current)

variable {r : Receiver} {m : Move} {a b : Address} {p : PeerId} {t : PeerState}

def Bare (r : Receiver) : Prop := r.closing = true → r.registry.Vacant

theorem bare_start (settings : Settings) : (start settings).Bare := fun h => by cases h

theorem onDatagram_closed (hc : r.closing = true) (raw : Bytes) :
    r.onDatagram a raw = (r,[]) := by
  rw [onDatagram,if_pos hc]

theorem Bare.make (h : r.Bare) (hs : r.Sound) (m : Move) : (r.make m).1.Bare := by
  intro hcl
  cases hc : r.closing with
  | true =>
    obtain ⟨hp,hcon,hr⟩ := h hc
    cases make_change hs m with
    | rest hs _ => exact ⟨by rw [hs.pending,hp],by rw [hs.connected,hcon],by rw [hs.retired,hr]⟩
    | @enlist a raw frame hm =>
      rw [hm,show r.make (.event (.datagram a raw)) = (r,[]) from onDatagram_closed hc raw]
      exact h hc
    | greet hs =>
      rw [hs.eq_of_pending hp]
      exact h hc
    | drop hs =>
      rw [Registry.removePending_eq_some hs]
      exact ⟨by rw [hp]; rfl,hcon,hr⟩
    | fall _ _ hat =>
      rw [hcon] at hat
      cases hat
    | @finish p x _ _ _ hs =>
      rw [hs]
      unfold Registry.forgetDrained
      split
      · exact h hc
      · rename_i hx
        rw [hr]
        exact h hc
    | shut _ hp hcon hr => exact ⟨hp,hcon,hr⟩
  | false =>
    have hm : m = .event .close := by
      refine Decidable.byContradiction fun hm => ?_
      rw [make_closing hm,hc] at hcl
      cases hcl
    rw [hm,show (r.make (.event .close)).1.registry = _ from shut_registry hc]
    exact Registry.vacant_shut _

theorem Bare.play (h : r.Bare) (hs : r.Sound) (ms : List Move) : (r.play ms).1.Bare :=
  (chain_induct (P := fun t : Receiver => t.Sound ∧ t.Bare) ⟨hs,h⟩
    (fun _ ht m => ⟨ht.1.make m,ht.2.make ht.1 m⟩) ms).2

theorem Bare.open_of_state (h : r.Bare) (ha : r.registry.state a ≠ .unseen) :
    r.closing = false := by
  cases hc : r.closing with
  | true => exact absurd ((h hc).state a) ha
  | false => rfl

theorem Bare.open_of_connected (h : r.Bare) (hc : r.registry.connected.get? a = some p) :
    r.closing = false := by
  cases ho : r.closing with
  | true =>
    rw [(h ho).connected] at hc
    cases hc
  | false => rfl

theorem onConnect_state (ht : r.registry.Tidy) (b : Address) (fragment : Int32) (a : Address) :
    (r.onConnect b fragment).1.registry.state a =
      if a = b ∧ r.settings.admits ∧
          (r.registry.state a = .unseen ∨ r.registry.state a = .closed) then .pending
      else r.registry.state a := by
  unfold onConnect
  split
  · rename_i hst
    have hno : ¬ (a = b ∧ r.settings.admits ∧
        (r.registry.state a = .unseen ∨ r.registry.state a = .closed)) := by
      rintro ⟨rfl,_,hs⟩
      rw [hst] at hs
      simp at hs
    rw [if_neg hno]
    split <;> rfl
  · rename_i hst
    rw [if_neg]
    rintro ⟨rfl,_,hs⟩
    rw [hst] at hs
    simp at hs
  all_goals
    rename_i hst
    split
    · rename_i hadm
      have hc : r.registry.connected.get? b = none := by
        refine Dict.not_mem_keys_iff.mp fun hm => ?_
        rw [Registry.state_eq_connected_iff.mpr hm] at hst
        cases hst
      show ((r.registry.register _).2.enqueue b _).state a = _
      rw [(ht.alike (alike_enlist r _)).state_enqueue hc,(alike_enlist r _).state]
      by_cases hab : a = b
      · subst hab
        simp [hadm,hst]
      · simp [hab]
    · rename_i hadm
      rw [if_neg]
      exact fun h => hadm h.2.1

theorem onData_state (b : Address) (fragment : Int32) (payload : Bytes) (a : Address) :
    (r.onData b fragment payload).1.registry.state a = r.registry.state a := by
  unfold onData
  split
  · rfl
  · split
    · rfl
    · split
      · rfl
      · simp only
        split
        · rfl
        · rfl

theorem onClose_state (ht : r.registry.Tidy) (b a : Address) :
    (r.onClose b).1.registry.state a =
      if a = b ∧ r.registry.state a = .pending then .unseen else r.registry.state a := by
  have hno : b ∉ r.registry.pending.keys → ¬ (a = b ∧ r.registry.state a = .pending) := by
    rintro hb ⟨rfl,hs⟩
    exact hb (ht.state_eq_pending_iff.mp hs)
  unfold onClose
  split
  · rename_i p hc
    have hconn : b ∈ r.registry.connected.keys := Dict.mem_keys_iff.mpr (by rw [hc]; rfl)
    rw [if_neg (hno fun hp => ht.pending_connected b hp hconn)]
    rfl
  · split
    · rename_i p s hd
      show s.state a = _
      rw [ht.state_drop hd]
      by_cases hab : a = b
      · subst hab
        have hp : a ∈ r.registry.pending.keys := by
          refine Decidable.byContradiction fun hn => ?_
          rw [Registry.removePending,Dict.not_mem_keys_iff.mp hn] at hd
          cases hd
        simp [ht.state_eq_pending_iff.mpr hp]
      · simp [hab]
    · rename_i hd
      have hb : b ∉ r.registry.pending.keys := by
        rw [Dict.not_mem_keys_iff]
        unfold Registry.removePending at hd
        split at hd
        · assumption
        · cases hd
      rw [if_neg (hno hb)]

theorem acceptNext_eq_none_iff (hs : r.Sound) :
    r.acceptNext = none ↔ r.registry.pending = [] := by
  constructor
  · intro h
    cases hp : r.registry.pending with
    | nil => rfl
    | cons e rest =>
      obtain ⟨a,p⟩ := e
      obtain ⟨x,hx,_⟩ := hs.registry.pending a p (by rw [hp]; exact List.mem_cons_self)
      have hat : (r.registry.peers.modify p fun peer =>
          { peer with silence := peer.silence.reset })[p]? = some
            { x with silence := x.silence.reset } := Registry.peers_modify_self hx
      simp [acceptNext,Registry.accept,Registry.modify,hp,hat] at h
  · intro h
    rw [acceptNext,Registry.accept,h]
    rfl

/-- With as many tries as there are peers that wait, none is left waiting. -/
theorem pending_acceptMany (hs : r.Sound) {fuel : Nat}
    (hf : r.registry.pending.length ≤ fuel) :
    (acceptMany fuel r).2.registry.pending = [] := by
  induction fuel generalizing r with
  | zero => exact List.eq_nil_of_length_eq_zero (Nat.le_zero.mp hf)
  | succ fuel ih =>
    unfold acceptMany
    cases hn : r.acceptNext with
    | none => exact (acceptNext_eq_none_iff hs).mp hn
    | some e =>
      obtain ⟨a,frame,t⟩ := e
      have hact : Performs (fun _ _ => True) True r t _ := acceptNext_acts hn
      have hroom := hs.room
      obtain ⟨p,s,x,ha,_,_,_,rfl⟩ := acceptNext_eq_some hn
      obtain ⟨b,rest,hp,rfl⟩ := Registry.accept_eq_some_iff.mp ha
      refine ih ⟨Registry.Acts.sound hact hs.registry,hroom⟩ ?_
      rw [hp,List.length_cons] at hf
      exact Nat.le_of_succ_le_succ hf

theorem attempt_state (hs : r.Sound) (hb : r.Bare) {call : Call}
    (hroom : ∀ p room, call = .read p room → 0 < room) (a : Address) :
    (r.attempt call).2.2.registry.state a =
      if call = .accept ∧ r.registry.pending.keys.head? = some a then .connected
      else r.registry.state a := by
  cases call with
  | accept =>
    have hnone : r.registry.pending = [] → ¬ r.registry.pending.keys.head? = some a := by
      intro hp
      rw [hp]
      simp [Dict.keys]
    simp only [attempt,true_and]
    split
    · rename_i hc
      rw [if_neg (hnone (hb hc).pending)]
    · split
      · rename_i hn
        rw [if_neg (hnone ((acceptNext_eq_none_iff hs).mp hn))]
      · rename_i b frame t hn
        obtain ⟨p,s,x,ha,_,_,_,rfl⟩ := acceptNext_eq_some hn
        rw [(Registry.alike_modify s p _).state]
        exact Registry.state_accept ha a
  | read p room =>
    rw [if_neg (by simp)]
    cases hx : r.registry.peers[p]? with
    | none =>
      simp only [attempt,hx]
    | some x =>
      rw [attempt_read hx (hroom p room rfl)]
      split
      · exact (Registry.alike_modify _ p _).state a
      · split
        · exact Registry.state_forgetDrained _ p a
        · split
          · rfl
          · rfl

/-- The address `a` is connected as the record `p`, whose next tick is one too many. -/
def Lapsing (r : Receiver) (p : PeerId) (a : Address) : Prop :=
  r.registry.connected.get? a = some p ∧ ∃ x, r.registry.peers[p]? = some x ∧
    x.checking = true ∧ (x.silence.tick r.settings.period).expired = true

theorem onTick_state_of_lapsing (hs : r.Sound) (ht : r.registry.Tidy) (h : r.Lapsing p b)
    (a : Address) :
    (r.onTick p).registry.state a =
      if a = b then if r.registry.retiredCapacity = 0 then .unseen else .closed
      else if r.registry.retiredOrder.length = r.registry.retiredCapacity ∧
        r.registry.retiredOrder.head? = some a then .unseen
      else r.registry.state a := by
  obtain ⟨hc,x,hx,hch,hexp⟩ := h
  obtain ⟨y,hy,hadd,_⟩ := hs.registry.connected b p hc
  rw [hx] at hy
  obtain rfl := Option.some.inj hy
  let silent := r.registry.modify p fun peer =>
    { peer with silence := x.silence.tick r.settings.period }
  have hfell : (r.onTick p).registry = silent.fell p b := by
    unfold onTick
    simp only [hx,hch,hexp,if_true,hadd]
    rfl
  rw [hfell,Registry.fell_of_connected (r := silent) hc,(Registry.alike_modify _ p _).state]
  exact ht.state_retiring hc _ a

theorem onTick_state_of_not_lapsing (h : ∀ b, ¬ r.Lapsing p b) (a : Address) :
    (r.onTick p).registry.state a = r.registry.state a := by
  unfold onTick
  split
  · rfl
  · rename_i x hx
    split
    · rename_i hch
      simp only
      split
      · rename_i hexp
        have hno : ¬ r.registry.connected.get? x.addr = some p :=
          fun hc => h x.addr ⟨hc,x,hx,hch,hexp⟩
        show (Registry.fell (r.registry.modify p _) p x.addr).state a = _
        rw [Registry.fell_of_not_connected (by exact hno)]
        rfl
      · rfl
    · rfl

/-- The causes for which what is seen of the address `a` changes, from what to what. -/
inductive Edge (r : Receiver) (a : Address) : Move → PeerState → PeerState → Prop
  | asked {raw : Bytes} {frame : Frame} {s : PeerState} (ho : r.closing = false)
      (hf : Frame.receive raw = .ok frame) (hk : frame.kind = .rcon)
      (hr : r.settings.admits = true) (hs : s = .unseen ∨ s = .closed) :
      Edge r a (.event (.datagram a raw)) s .pending
  | left {raw : Bytes} {frame : Frame} (hf : Frame.receive raw = .ok frame)
      (hk : frame.kind = .rcls) : Edge r a (.event (.datagram a raw)) .pending .unseen
  | acceptedAll : Edge r a (.event .acceptAll) .pending .connected
  | accepted (hn : r.registry.pending.keys.head? = some a) :
      Edge r a (.event .acceptOne) .pending .connected
  | acceptedLater {k : CallId} (hw : Waiting.ready? r.waiting k = some .accept)
      (hn : r.registry.pending.keys.head? = some a) : Edge r a (.retry k) .pending .connected
  | lapsed {p : PeerId} (hl : r.Lapsing p a) :
      Edge r a (.event (.tick p)) .connected
        (if r.registry.retiredCapacity = 0 then .unseen else .closed)
  /-- Another peer is retired, there is no room for one more mark, and the mark of the address is
  the oldest. -/
  | evicted {p : PeerId} {b : Address} (hl : r.Lapsing p b) (hne : b ≠ a)
      (hfull : r.registry.retiredOrder.length = r.registry.retiredCapacity)
      (hold : r.registry.retiredOrder.head? = some a) :
      Edge r a (.event (.tick p)) .closed .unseen
  | shut {s : PeerState} (hs : s ≠ .unseen) : Edge r a (.event .close) s .unseen

def Turns (r : Receiver) (m : Move) (a : Address) (t : PeerState) : Prop :=
  (r.make m).1.registry.state a = t ∧ r.registry.state a ≠ t

/-- A change of what is seen that has one cause and one outcome is to that outcome by that cause. -/
theorem turns_iff {cause : Prop} [Decidable cause] {u : PeerState}
    (h : (r.make m).1.registry.state a = if cause then u else r.registry.state a)
    (hne : cause → r.registry.state a ≠ u) : r.Turns m a t ↔ cause ∧ t = u := by
  unfold Turns
  rw [h]
  by_cases hc : cause
  · rw [if_pos hc]
    constructor
    · rintro ⟨rfl,_⟩
      exact ⟨hc,rfl⟩
    · rintro ⟨_,rfl⟩
      exact ⟨rfl,hne hc⟩
  · rw [if_neg hc]
    exact ⟨fun ⟨he,hn⟩ => absurd he hn,fun h => absurd h.1 hc⟩

theorem not_turns (h : (r.make m).1.registry.state a = r.registry.state a) : ¬ r.Turns m a t :=
  fun ⟨he,hn⟩ => hn (h.symm.trans he)

theorem edge_datagram_iff {raw : Bytes} {s : PeerState} :
    Edge r a (.event (.datagram b raw)) s t ↔ a = b ∧ ∃ frame, Frame.receive raw = .ok frame ∧
      ((frame.kind = .rcon ∧ r.closing = false ∧ r.settings.admits = true ∧
          (s = .unseen ∨ s = .closed) ∧ t = .pending) ∨
        (frame.kind = .rcls ∧ s = .pending ∧ t = .unseen)) := by
  constructor
  · intro h
    cases h with
    | asked ho hf hk hr hs => exact ⟨rfl,_,hf,.inl ⟨hk,ho,hr,hs,rfl⟩⟩
    | left hf hk => exact ⟨rfl,_,hf,.inr ⟨hk,rfl,rfl⟩⟩
  · rintro ⟨rfl,frame,hf,⟨hk,ho,hr,hs,rfl⟩ | ⟨hk,rfl,rfl⟩⟩
    · exact .asked ho hf hk hr hs
    · exact .left hf hk

theorem turns_datagram_iff (ht : r.registry.Tidy) (hb : r.Bare) (raw : Bytes) :
    r.Turns (.event (.datagram b raw)) a t ↔
      Edge r a (.event (.datagram b raw)) (r.registry.state a) t := by
  rw [edge_datagram_iff]
  have hmake : r.make (.event (.datagram b raw)) = r.onDatagram b raw := rfl
  cases hc : r.closing with
  | true =>
    have hun := (hb hc).state a
    refine iff_of_false (not_turns ?_) ?_
    · rw [hmake,onDatagram_closed hc]
    · rintro ⟨_,frame,_,⟨_,ho,_⟩ | ⟨_,hs,_⟩⟩
      · cases ho
      · rw [hun] at hs
        cases hs
  | false =>
    cases hf : Frame.receive raw with
    | error e =>
      refine iff_of_false (not_turns ?_) ?_
      · simp [hmake,onDatagram,hc,hf]
      · rintro ⟨_,frame,he,_⟩
        cases he
    | ok frame =>
      cases hk : frame.kind with
      | rcon =>
        have heq : r.make (.event (.datagram b raw)) = r.onConnect b frame.fragment := by
          simp [hmake,onDatagram,hc,hf,hk]
        have hstate := onConnect_state ht b frame.fragment a
        rw [← heq] at hstate
        rw [turns_iff hstate (by rintro ⟨_,_,hs | hs⟩ <;> simp [hs])]
        simp [hk,and_assoc]
      | rcls =>
        have heq : r.make (.event (.datagram b raw)) = r.onClose b := by
          simp [hmake,onDatagram,hc,hf,hk]
        have hstate := onClose_state ht b a
        rw [← heq] at hstate
        rw [turns_iff hstate (by rintro ⟨_,hs⟩; simp [hs])]
        simp [hk,and_assoc]
      | data =>
        have heq : r.make (.event (.datagram b raw)) = r.onData b frame.fragment frame.payload := by
          simp [hmake,onDatagram,hc,hf,hk]
        refine iff_of_false (not_turns (by rw [heq]; exact onData_state b _ _ a)) ?_
        simp [hk]
      | unkn | acon | adat | acls =>
        have heq : r.make (.event (.datagram b raw)) = (r,[]) := by
          simp [hmake,onDatagram,hc,hf,hk]
        refine iff_of_false (not_turns (by rw [heq])) ?_
        simp [hk]

theorem edge_tick_iff {s : PeerState} :
    Edge r a (.event (.tick p)) s t ↔
      (r.Lapsing p a ∧ s = .connected ∧
        t = if r.registry.retiredCapacity = 0 then .unseen else .closed) ∨
      ((∃ b, b ≠ a ∧ r.Lapsing p b) ∧ r.registry.retiredOrder.length = r.registry.retiredCapacity ∧
        r.registry.retiredOrder.head? = some a ∧ s = .closed ∧ t = .unseen) := by
  constructor
  · intro h
    cases h with
    | lapsed hl => exact .inl ⟨hl,rfl,rfl⟩
    | evicted hl hne hfull hold => exact .inr ⟨⟨_,hne,hl⟩,hfull,hold,rfl,rfl⟩
  · rintro (⟨hl,rfl,rfl⟩ | ⟨⟨b,hne,hl⟩,hfull,hold,rfl,rfl⟩)
    · exact .lapsed hl
    · exact .evicted hl hne hfull hold

theorem Lapsing.unique (hs : r.Sound) (ha : r.Lapsing p a) (hb : r.Lapsing p b) : a = b := by
  obtain ⟨x,hx,hxa,_⟩ := hs.registry.connected a p ha.1
  obtain ⟨y,hy,hyb,_⟩ := hs.registry.connected b p hb.1
  rw [hx] at hy
  rw [← hxa,← hyb,Option.some.inj hy]

theorem turns_tick_iff (hs : r.Sound) (ht : r.registry.Tidy) :
    r.Turns (.event (.tick p)) a t ↔ Edge r a (.event (.tick p)) (r.registry.state a) t := by
  rw [edge_tick_iff]
  by_cases hl : ∃ b, r.Lapsing p b
  · obtain ⟨b,hl⟩ := hl
    have hstate : (r.make (.event (.tick p))).1.registry.state a = _ :=
      onTick_state_of_lapsing hs ht hl a
    by_cases hab : a = b
    · subst hab
      have hconn : r.registry.state a = .connected :=
        Registry.state_eq_connected_iff.mpr (Dict.mem_keys_iff.mpr (by rw [hl.1]; rfl))
      have hother : ¬ ∃ b, b ≠ a ∧ r.Lapsing p b := fun ⟨b,hne,hb⟩ => hne (hb.unique hs hl)
      have hne : PeerState.connected ≠
          if r.registry.retiredCapacity = 0 then .unseen else .closed := by
        split <;> simp
      rw [if_pos rfl] at hstate
      unfold Turns
      rw [hstate,hconn]
      constructor
      · rintro ⟨rfl,_⟩
        exact .inl ⟨hl,rfl,rfl⟩
      · rintro (⟨_,_,rfl⟩ | ⟨hb,_⟩)
        · exact ⟨rfl,hne⟩
        · exact absurd hb hother
    · have hself : ¬ r.Lapsing p a := fun ha => hab (ha.unique hs hl)
      have hclosed : r.registry.retiredOrder.head? = some a → r.registry.state a = .closed :=
        fun hold => ht.state_eq_closed_iff.mpr ((ht.mem_order a).mp (List.mem_of_mem_head? hold))
      rw [if_neg hab] at hstate
      rw [turns_iff hstate (fun h => by rw [hclosed h.2]; simp)]
      constructor
      · rintro ⟨⟨hfull,hold⟩,rfl⟩
        exact .inr ⟨⟨b,fun h => hab h.symm,hl⟩,hfull,hold,hclosed hold,rfl⟩
      · rintro (⟨ha,_⟩ | ⟨_,hfull,hold,_,rfl⟩)
        · exact absurd ha hself
        · exact ⟨⟨hfull,hold⟩,rfl⟩
  · refine iff_of_false (not_turns ?_) ?_
    · exact onTick_state_of_not_lapsing (fun b hb => hl ⟨b,hb⟩) a
    · rintro (⟨ha,_⟩ | ⟨⟨b,_,hb⟩,_⟩)
      · exact hl ⟨a,ha⟩
      · exact hl ⟨b,hb⟩

theorem turns_close_iff (hb : r.Bare) :
    r.Turns (.event .close) a t ↔ Edge r a (.event .close) (r.registry.state a) t := by
  have hstate : (r.make (.event .close)).1.registry.state a = .unseen := by
    show r.shut.registry.state a = .unseen
    cases hc : r.closing with
    | true =>
      have hsame : r.shut = r := by rw [Receiver.shut,if_pos hc]
      rw [hsame]
      exact (hb hc).state a
    | false =>
      rw [shut_registry hc]
      exact (Registry.vacant_shut _).state a
  constructor
  · rintro ⟨rfl,hne⟩
    rw [hstate] at hne ⊢
    exact .shut hne
  · intro h
    cases h with
    | shut hne => exact ⟨hstate,hne⟩

theorem state_of_head (ht : r.registry.Tidy) (hn : r.registry.pending.keys.head? = some a) :
    r.registry.state a = .pending :=
  ht.state_eq_pending_iff.mpr (List.mem_of_mem_head? hn)

theorem turns_attempt_iff (hs : r.Sound) (ht : r.registry.Tidy) (hb : r.Bare) {call : Call}
    (hroom : ∀ p room, call = .read p room → 0 < room)
    (hm : (r.make m).1.registry = (r.attempt call).2.2.registry) :
    r.Turns m a t ↔
      (call = .accept ∧ r.registry.pending.keys.head? = some a) ∧ t = .connected := by
  have hstate := attempt_state hs hb hroom a
  rw [← hm] at hstate
  refine turns_iff hstate ?_
  rintro ⟨_,hn⟩
  rw [state_of_head ht hn]
  simp

theorem edge_accept_iff (ht : r.registry.Tidy) :
    Edge r a (.event .acceptOne) (r.registry.state a) t ↔
      r.registry.pending.keys.head? = some a ∧ t = .connected := by
  constructor
  · generalize r.registry.state a = s
    intro h
    cases h with
    | accepted hn => exact ⟨hn,rfl⟩
  · rintro ⟨hn,rfl⟩
    rw [state_of_head ht hn]
    exact .accepted hn

theorem edge_retry_iff (ht : r.registry.Tidy) {k : CallId} :
    Edge r a (.retry k) (r.registry.state a) t ↔
      (Waiting.ready? r.waiting k = some .accept ∧ r.registry.pending.keys.head? = some a) ∧
        t = .connected := by
  constructor
  · generalize r.registry.state a = s
    intro h
    cases h with
    | acceptedLater hw hn => exact ⟨⟨hw,hn⟩,rfl⟩
  · rintro ⟨⟨hw,hn⟩,rfl⟩
    rw [state_of_head ht hn]
    exact .acceptedLater hw hn

theorem turns_acceptAll_iff (hs : r.Sound) (ht : r.registry.Tidy) (hb : r.Bare) :
    r.Turns (.event .acceptAll) a t ↔ Edge r a (.event .acceptAll) (r.registry.state a) t := by
  have hstate : (r.make (.event .acceptAll)).1.registry.state a =
      if r.registry.state a = .pending then .connected else r.registry.state a := by
    show (r.react .acceptAll).1.registry.state a = _
    simp only [react]
    split
    · rename_i hc
      rw [if_neg]
      · rfl
      · rw [(hb hc).state]
        simp
    · exact (greets_acceptMany _ r).state ht (pending_acceptMany hs (Nat.le_refl _)) a
  rw [turns_iff hstate fun h => by rw [h]; simp]
  generalize r.registry.state a = s
  constructor
  · rintro ⟨rfl,rfl⟩
    exact .acceptedAll
  · intro h
    cases h with
    | acceptedAll => exact ⟨rfl,rfl⟩

theorem make_read_registry (r : Receiver) (b : Address) (room : Nat) :
    (r.make (.event (.read b room))).1.registry = r.registry ∨
      ∃ p, 0 < room ∧ (r.make (.event (.read b room))).1.registry =
        (r.attempt (.read p room)).2.2.registry := by
  show (r.react (.read b room)).1.registry = r.registry ∨ ∃ p, 0 < room ∧
    (r.react (.read b room)).1.registry = (r.attempt (.read p room)).2.2.registry
  simp only [react]
  split
  · exact .inl rfl
  · split
    · exact .inl rfl
    · exact .inl rfl
    · rename_i p _
      split
      · exact .inl rfl
      · rename_i hz
        exact .inr ⟨p,Nat.pos_of_ne_zero hz,enter_registry r _⟩

/-- What is seen of an address changes along an edge and on every edge. -/
theorem make_edge (hs : r.Sound) (ht : r.registry.Tidy) (hb : r.Bare) (m : Move) (a : Address)
    (t : PeerState) : r.Turns m a t ↔ Edge r a m (r.registry.state a) t := by
  match m with
  | .event (.datagram b raw) => exact turns_datagram_iff ht hb raw
  | .event .acceptOne =>
    have henter : (r.make (.event .acceptOne)).1.registry = _ := enter_registry r .accept
    rw [turns_attempt_iff hs ht hb (fun _ _ h => by cases h) henter,edge_accept_iff ht,
      and_iff_right rfl]
  | .event .acceptAll => exact turns_acceptAll_iff hs ht hb
  | .event (.read b room) =>
    refine iff_of_false ?_ ?_
    · rcases make_read_registry r b room with he | ⟨p,hr,he⟩
      · exact not_turns (by rw [he])
      · rw [turns_attempt_iff hs ht hb (fun _ _ h => by cases h; exact hr) he]
        rintro ⟨⟨h,_⟩,_⟩
        cases h
    · intro h
      cases h
  | .event (.tick p) => exact turns_tick_iff hs ht
  | .event .close => exact turns_close_iff hb
  | .retry k =>
    rw [edge_retry_iff ht]
    cases hw : Waiting.ready? r.waiting k with
    | none =>
      refine iff_of_false (not_turns ?_) ?_
      · show (r.poll k).1.registry.state a = _
        rw [poll_none hw]
      · rintro ⟨⟨h,_⟩,_⟩
        cases h
    | some call =>
      have hpoll : (r.make (.retry k)).1.registry = _ := poll_registry hw
      rw [turns_attempt_iff hs ht hb (fun _ _ => room_of_ready hs hw) hpoll,Option.some.injEq]

variable {raw : Bytes} {frame : Frame}

theorem onDatagram_rcon (ho : r.closing = false) (hf : Frame.receive raw = .ok frame)
    (hk : frame.kind = .rcon) : r.onDatagram a raw = r.onConnect a frame.fragment := by
  simp [onDatagram,ho,hf,hk]

theorem onDatagram_data (ho : r.closing = false) (hf : Frame.receive raw = .ok frame)
    (hk : frame.kind = .data) : r.onDatagram a raw = r.onData a frame.fragment frame.payload := by
  simp [onDatagram,ho,hf,hk]

theorem onDatagram_rcls (ho : r.closing = false) (hf : Frame.receive raw = .ok frame)
    (hk : frame.kind = .rcls) : r.onDatagram a raw = r.onClose a := by
  simp [onDatagram,ho,hf,hk]

theorem onDatagram_waiting (hb : r.Bare) (hf : Frame.receive raw = .ok frame)
    (hk : frame.kind = .rcon) (ha : r.registry.state a = .pending) :
    r.onDatagram a raw = (r,[]) := by
  rw [onDatagram_rcon (hb.open_of_state (by rw [ha]; simp)) hf hk,onConnect,ha]

/-- A connected peer that asks again is told what was taken and how much room there is. -/
theorem onDatagram_connected (hs : r.Sound) (hb : r.Bare) (hf : Frame.receive raw = .ok frame)
    (hk : frame.kind = .rcon) (ha : r.registry.state a = .connected) :
    ∃ p x, r.registry.connected.get? a = some p ∧ r.registry.peers[p]? = some x ∧
      r.onDatagram a raw = (r,[.send a (reply .acon x.inbox.lastAccepted x.inbox.window)]) := by
  obtain ⟨p,hc⟩ := Option.isSome_iff_exists.mp
    (Dict.mem_keys_iff.mp (Registry.state_eq_connected_iff.mp ha))
  obtain ⟨x,hx,_⟩ := hs.registry.connected a p hc
  refine ⟨p,x,hc,hx,?_⟩
  rw [onDatagram_rcon (hb.open_of_state (by rw [ha]; simp)) hf hk,onConnect,ha]
  simp [hc,hx]

theorem bare_after (settings : Settings) (ms : List Move) : (after settings ms).Bare :=
  (bare_start settings).play (sound_start settings) ms

/-- What holds of a receiver and a log at first, and survives every move and what the move adds to
the log, holds after moves in a row. -/
theorem tally_induct {α : Type} {f : Receiver → Move → List α} {P : Receiver → List α → Prop}
    (hstep : ∀ t log m, t.Sound → t.registry.Tidy → t.Bare → P t log →
      P (t.make m).1 (log ++ f t m)) {settings : Settings} (h : P (start settings) [])
    (ms : List Move) : P (after settings ms) ((start settings).tally f ms) := by
  have hplay : ∀ (t : Receiver) (log : List α), t.Sound → t.registry.Tidy → t.Bare → P t log →
      P (t.play ms).1 (log ++ t.tally f ms) := by
    induction ms with
    | nil =>
      intro t log _ _ _ hlog
      rw [tally,List.append_nil]
      exact hlog
    | cons m ms ih =>
      intro t log hs ht hb hlog
      rw [tally,← List.append_assoc]
      exact ih _ _ (hs.make m) ((make_change hs m).tidy ht) (hb.make hs m)
        (hstep t log m hs ht hb hlog)
  exact hplay _ [] (sound_start settings) (tidy_start settings) (bare_start settings) h

/-- What always holds of the addresses of a receiver and of the next change of what is seen of
them. -/
structure Lifecycle (r : Receiver) : Prop where
  turns : ∀ m a t, r.Turns m a t ↔ Edge r a m (r.registry.state a) t
  places : ∀ a, r.registry.places a = if r.registry.state a = .unseen then 0 else 1
  unique : ∀ a p q, r.registry.Found a p → r.registry.Found a q → p = q
  waiting : ∀ a raw frame, Frame.receive raw = .ok frame → frame.kind = .rcon →
    r.registry.state a = .pending → r.react (.datagram a raw) = (r,[])
  connected : ∀ a raw frame, Frame.receive raw = .ok frame → frame.kind = .rcon →
    r.registry.state a = .connected →
    ∃ p x, r.registry.connected.get? a = some p ∧ r.registry.peers[p]? = some x ∧
      r.react (.datagram a raw) =
        (r,[.send a (reply .acon x.inbox.lastAccepted x.inbox.window)])

/-- Whatever happens to a receiver, what is seen of an address changes along the edges alone, and
asking again changes nothing. -/
theorem lifecycle_along_play (settings : Settings) (ms : List Move) :
    Lifecycle (after settings ms) := by
  have hsound := (sound_start settings).play ms
  have htidy := Tidy.play (tidy_start settings) (sound_start settings) ms
  have hbare := (bare_start settings).play (sound_start settings) ms
  have hcurrent := Current.play (Registry.current_empty _) (sound_start settings) ms
  exact {
    turns := make_edge hsound htidy hbare
    places := htidy.places_eq
    unique := fun _ _ _ => hcurrent.unique
    waiting := fun _ _ _ => onDatagram_waiting hbare
    connected := fun _ _ _ => onDatagram_connected hsound hbare }

/-- A peer asks twice and is accepted. -/
theorem lifecycle_along_play_askTwice :
    let a : Address := ⟨.localhost,0,4001⟩
    let ask := Frame.encode ⟨.rcon,0,0,[]⟩
    let r := after ⟨64,.ofMillis 1500,.ofMillis 500,1,true⟩ [.event (.datagram a ask)]
    r.registry.state a = .pending ∧ r.react (.datagram a ask) = (r,[]) ∧
      r.Turns (.event .acceptOne) a .connected := by
  intro a ask r
  have h : Lifecycle r := lifecycle_along_play _ _
  have hask : Frame.receive ask = .ok ⟨.rcon,0,0,[]⟩ := Frame.receive_encode (Nat.zero_le _)
  have hstate : r.registry.state a = .pending := by decide +kernel
  refine ⟨hstate,h.waiting a ask _ hask rfl hstate,(h.turns _ a _).mpr ?_⟩
  rw [hstate]
  exact .accepted (by decide +kernel)

end Receiver
end ReliableTransport
