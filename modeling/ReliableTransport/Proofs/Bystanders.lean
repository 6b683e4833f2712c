import Mathlib.Data.List.Nodup
import ReliableTransport.Proofs.Readers
import ReliableTransport.Proofs.Standing
import ReliableTransport.Proofs.Stillness

/-! What a datagram leaves alone at a receiver. Whatever arrives from an address, what is kept of
the other ones stays as it is, record by record and mark by mark, and those of them that wait keep
their order (`Registry.Beside`, `onDatagram_beside`). At most one frame goes out, to the address
itself, and all that the woken calls make of it is its own concern, too (`step_beside`). -/
namespace ReliableTransport

namespace Registry

def enlist (g : Registry) (a : Address) (x : Peer) : Registry :=
  (g.register x).2.enqueue a g.peers.length

theorem peers_enlist (g : Registry) (a : Address) (x : Peer) :
    (g.enlist a x).peers = g.peers ++ [x] := by
  rw [enlist,peers_enqueue]
  rfl

theorem pending_enlist (g : Registry) (a : Address) (x : Peer) :
    (g.enlist a x).pending = g.pending ++ [(a,g.peers.length)] := by
  rw [enlist,pending_enqueue]
  rfl

theorem connected_enlist (g : Registry) (a : Address) (x : Peer) :
    (g.enlist a x).connected = g.connected := by
  rw [enlist,connected_enqueue]
  rfl

theorem capacity_enlist (g : Registry) (a : Address) (x : Peer) :
    (g.enlist a x).retiredCapacity = g.retiredCapacity := by
  unfold enlist enqueue register
  simp only
  split <;> rfl

theorem retired_enlist (g : Registry) (a : Address) (x : Peer) :
    (g.enlist a x).retired = g.retired.erase a := by
  unfold enlist enqueue register
  simp only
  split
  · rfl
  · rename_i hno
    exact (Dict.erase_of_not_mem fun hm => hno (Dict.mem_keys_iff.mp hm)).symm

theorem order_enlist (g : Registry) (a : Address) (x : Peer) :
    (g.enlist a x).retiredOrder =
      if (g.retired.get? a).isSome then g.retiredOrder.filter (· ≠ a) else g.retiredOrder := by
  unfold enlist enqueue register
  simp only
  split <;> rfl

def leave (g : Registry) (a : Address) : Registry :=
  { g with pending := g.pending.eraseP fun e => e.1 = a }

/-- Nothing differs in `s` from what it is in `r` but what is kept of the address `b`. -/
structure Beside (b : Address) (r s : Registry) : Prop where
  peers : ∀ (p : PeerId) (x : Peer), x.addr ≠ b → (s.peers[p]? = some x ↔ r.peers[p]? = some x)
  pending : s.pending.erase b = r.pending.erase b
  connected : s.connected.erase b = r.connected.erase b
  retired : s.retired.erase b = r.retired.erase b
  order : s.retiredOrder.filter (· ≠ b) = r.retiredOrder.filter (· ≠ b)
  capacity : s.retiredCapacity = r.retiredCapacity
  length : r.peers.length ≤ s.peers.length

variable {r s t : Registry} {a b : Address} {p : PeerId} {x : Peer}

theorem Beside.refl (b : Address) (r : Registry) : Beside b r r :=
  ⟨fun _ _ _ => .rfl,rfl,rfl,rfl,rfl,rfl,Nat.le_refl _⟩

theorem Beside.trans (h : Beside b r s) (ht : Beside b s t) : Beside b r t where
  peers := fun p x hx => (ht.peers p x hx).trans (h.peers p x hx)
  pending := ht.pending.trans h.pending
  connected := ht.connected.trans h.connected
  retired := ht.retired.trans h.retired
  order := ht.order.trans h.order
  capacity := ht.capacity.trans h.capacity
  length := Nat.le_trans h.length ht.length

theorem Beside.record (h : Beside b r s) (hx : r.peers[p]? = some x) (hb : x.addr = b) :
    ∃ y, s.peers[p]? = some y ∧ y.addr = b := by
  have hlt := Nat.lt_of_lt_of_le (List.getElem?_eq_some_iff.mp hx).1 h.length
  have hy := List.getElem?_eq_getElem hlt
  refine ⟨_,hy,Decidable.byContradiction fun hne => ?_⟩
  have hold := (h.peers p _ hne).mp hy
  rw [hx] at hold
  exact hne (Option.some.inj hold ▸ hb)

theorem Beside.state (h : Beside b r s) (hab : a ≠ b) : s.state a = r.state a := by
  simp only [Registry.state,Dict.get?_of_erase h.connected hab,Dict.get?_of_erase h.pending hab,
    Dict.get?_of_erase h.retired hab]

theorem beside_modify (hx : r.peers[p]? = some x) {f : Peer → Peer} (hb : x.addr = b)
    (hf : (f x).addr = x.addr) : Beside b r (r.modify p f) where
  peers := by
    intro q y hy
    by_cases hq : p = q
    · subst hq
      rw [peers_modify_self hx,hx]
      constructor
      · intro he
        rw [← Option.some.inj he,hf,hb] at hy
        exact absurd rfl hy
      · intro he
        rw [← Option.some.inj he,hb] at hy
        exact absurd rfl hy
    · rw [peers_modify_ne f hq]
  pending := rfl
  connected := rfl
  retired := rfl
  order := rfl
  capacity := rfl
  length := Nat.le_of_eq (length_modify r p f).symm

theorem beside_enlist (r : Registry) (hb : x.addr = b) : Beside b r (r.enlist b x) where
  peers := by
    intro q y hy
    rw [peers_enlist]
    by_cases hq : q < r.peers.length
    · rw [List.getElem?_append_left hq]
    · rw [List.getElem?_append_right (Nat.le_of_not_lt hq),
        List.getElem?_eq_none (Nat.le_of_not_lt hq)]
      constructor
      · intro he
        obtain rfl := List.mem_singleton.mp (List.mem_of_getElem? he)
        exact absurd hb hy
      · intro he
        cases he
  pending := by
    rw [pending_enlist]
    exact Dict.erase_concat ..
  connected := by rw [connected_enlist]
  retired := by
    rw [retired_enlist]
    exact Dict.erase_erase ..
  order := by
    rw [order_enlist]
    split
    · rw [List.filter_filter]
      simp
    · rfl
  capacity := capacity_enlist r b x
  length := by
    rw [peers_enlist,List.length_append]
    exact Nat.le_add_right _ _

theorem filter_eraseP {α : Type} {p q : α → Bool} (h : ∀ x, p x = true → q x = false)
    (l : List α) : (l.eraseP p).filter q = l.filter q := by
  induction l with
  | nil => rfl
  | cons x l ih =>
    cases hp : p x with
    | true => rw [List.eraseP_cons_of_pos hp,List.filter_cons_of_neg (by simp [h x hp])]
    | false => rw [List.eraseP_cons_of_neg (by simp [hp]),List.filter_cons,List.filter_cons,ih]

theorem beside_leave (r : Registry) (b : Address) : Beside b r (r.leave b) :=
  { Beside.refl b r with pending := filter_eraseP (fun e he => by simpa using he) _ }

theorem beside_accept (hs : r.Sound) (hb : ∀ e ∈ r.pending, e.1 = b) (ha : r.accept = some (p,s)) :
    Beside b r s ∧ ∃ y, s.peers[p]? = some y ∧ y.addr = b := by
  obtain ⟨e,rest,hp,rfl⟩ := accept_eq_some_iff.mp ha
  have hmem : (e,p) ∈ r.pending := by
    rw [hp]
    exact List.mem_cons_self
  obtain rfl : e = b := hb _ hmem
  obtain ⟨x,hx,hxa,_⟩ := hs.pending e p hmem
  have hm := beside_modify hx (f := fun peer => { peer with silence := peer.silence.reset }) hxa rfl
  refine ⟨{ hm with pending := ?_, connected := Dict.erase_insert .. },_,peers_modify_self hx,hxa⟩
  show Dict.erase rest e = r.pending.erase e
  rw [hp]
  simp [Dict.erase]

theorem beside_forget (hx : r.peers[p]? = some x) (hb : x.addr = b) :
    Beside b r (r.forgetDrained p) := by
  unfold forgetDrained
  rw [hx]
  simp only
  split
  · exact { Beside.refl b r with retired := by rw [hb]; exact Dict.erase_insert .. }
  · exact .refl b r

end Registry

namespace Receiver

variable {r t u : Receiver} {a b : Address} {raw : Bytes} {p : PeerId} {x : Peer}

def foreign (r : Receiver) (b : Address) : Call → Bool
  | .accept => false
  | .read p _ => (r.registry.peers[p]?).any fun x => x.addr ≠ b

/-- Nothing differs in `t` from what it is in `r` but what is kept of the address `b` and the calls
that read from it or wait for anybody. -/
structure Beside (b : Address) (r t : Receiver) : Prop where
  registry : r.registry.Beside b t.registry
  settings : t.settings = r.settings
  closing : t.closing = r.closing
  calls : t.calls = r.calls
  waiting : t.waiting.filter (fun w => r.foreign b w.call) =
    r.waiting.filter fun w => r.foreign b w.call

theorem foreign_read_iff {room : Nat} :
    r.foreign b (.read p room) = true ↔ ∃ x, r.registry.peers[p]? = some x ∧ x.addr ≠ b := by
  simp [foreign,Option.any_eq_true]

theorem foreign_congr (h : r.registry.Beside b t.registry) (call : Call) :
    t.foreign b call = r.foreign b call := by
  cases call with
  | accept => rfl
  | read p room =>
    rw [Bool.eq_iff_iff,foreign_read_iff,foreign_read_iff]
    constructor
    · rintro ⟨x,hx,hb⟩
      exact ⟨x,(h.peers p x hb).mp hx,hb⟩
    · rintro ⟨x,hx,hb⟩
      exact ⟨x,(h.peers p x hb).mpr hx,hb⟩

theorem foreign_of_record (hx : r.registry.peers[p]? = some x) (hb : x.addr = b) (room : Nat) :
    r.foreign b (.read p room) = false := by
  simp [foreign,hx,hb]

theorem Beside.refl (b : Address) (r : Receiver) : Beside b r r := ⟨.refl b _,rfl,rfl,rfl,rfl⟩

theorem Beside.trans (h : Beside b r t) (hu : Beside b t u) : Beside b r u where
  registry := h.registry.trans hu.registry
  settings := hu.settings.trans h.settings
  closing := hu.closing.trans h.closing
  calls := hu.calls.trans h.calls
  waiting := by
    have hsame : ∀ ws : List (Waiting Call), (ws.filter fun w => t.foreign b w.call) =
        ws.filter fun w => r.foreign b w.call := fun ws =>
      List.filter_congr fun w _ => foreign_congr h.registry w.call
    rw [← hsame,hu.waiting,hsame,h.waiting]

theorem beside_of_registry (h : r.registry.Beside b t.registry) (hs : t.settings = r.settings)
    (hc : t.closing = r.closing) (hn : t.calls = r.calls) (hw : t.waiting = r.waiting) :
    Beside b r t :=
  ⟨h,hs,hc,hn,by rw [hw]⟩

theorem beside_wakeAccepts (r : Receiver) (b : Address) : Beside b r r.wakeAccepts := by
  refine ⟨.refl b _,rfl,rfl,rfl,Waiting.filter_wake r.waiting (fun c => c = .accept)
    (fun call => r.foreign b call) fun call hc => ?_⟩
  rw [decide_eq_true_eq] at hc
  rw [hc]
  rfl

theorem beside_wakeReads (hx : r.registry.peers[p]? = some x) (hb : x.addr = b) :
    Beside b r (r.wakeReads p) := by
  refine ⟨.refl b _,rfl,rfl,rfl,?_⟩
  rw [waiting_wakeReads]
  refine Waiting.filter_wake r.waiting _ (fun call => r.foreign b call) fun call hc => ?_
  cases call with
  | accept => rfl
  | read q room =>
    obtain rfl : q = p := by simpa using hc
    exact foreign_of_record hx hb room

theorem onConnect_beside (r : Receiver) (b : Address) (fragment : Int32) :
    Beside b r (r.onConnect b fragment).1 ∧
      ((r.onConnect b fragment).2 = [] ∨ ∃ frame, (r.onConnect b fragment).2 = [.send b frame]) := by
  unfold onConnect
  split
  · split
    · exact ⟨.refl b r,.inr ⟨_,rfl⟩⟩
    · exact ⟨.refl b r,.inl rfl⟩
  · exact ⟨.refl b r,.inl rfl⟩
  all_goals
    split
    · have hput : Beside b r { r with
          registry := r.registry.enlist b
            (.start b fragment r.settings.capacity r.settings.threshold) } :=
        beside_of_registry (Registry.beside_enlist r.registry rfl) rfl rfl rfl rfl
      exact ⟨hput.trans (beside_wakeAccepts _ b),.inl rfl⟩
    · exact ⟨.refl b r,.inl rfl⟩

theorem onData_beside (hs : r.Sound) (b : Address) (fragment : Int32) (payload : Bytes) :
    Beside b r (r.onData b fragment payload).1 ∧ ((r.onData b fragment payload).2 = [] ∨
      ∃ frame, (r.onData b fragment payload).2 = [.send b frame]) := by
  cases hc : r.registry.connected.get? b with
  | none =>
    rw [onData_of_none hc]
    exact ⟨.refl b r,.inl rfl⟩
  | some p =>
    obtain ⟨x,hx,hb,_⟩ := hs.registry.connected b p hc
    cases hcl : x.closing with
    | true =>
      rw [onData_of_closing hc hx hcl]
      exact ⟨.refl b r,.inl rfl⟩
    | false =>
      cases ho : x.inbox.offer fragment payload with
      | none =>
        rw [onData_of_refused hc hx hcl ho]
        refine ⟨beside_of_registry ?_ rfl rfl rfl rfl,.inr ⟨_,rfl⟩⟩
        exact Registry.beside_modify hx hb rfl
      | some inbox =>
        rw [onData_of_taken hc hx hcl ho]
        have hput : Beside b r (r.modify p fun peer =>
            { peer with inbox := inbox, silence := peer.silence.reset }) :=
          beside_of_registry (Registry.beside_modify hx hb rfl) rfl rfl rfl rfl
        exact ⟨hput.trans (beside_wakeReads (Registry.peers_modify_self hx) hb),.inr ⟨_,rfl⟩⟩

theorem onClose_beside (hs : r.Sound) (b : Address) :
    Beside b r (r.onClose b).1 ∧
      ((r.onClose b).2 = [] ∨ ∃ frame, (r.onClose b).2 = [.send b frame]) := by
  unfold onClose
  split
  · rename_i p hc
    obtain ⟨x,hx,hb,_⟩ := hs.registry.connected b p hc
    refine ⟨beside_of_registry ?_ rfl rfl rfl rfl,.inr ⟨_,rfl⟩⟩
    exact Registry.beside_modify hx hb rfl
  · split
    · rename_i p s hd
      rw [Registry.removePending_eq_some hd]
      exact ⟨beside_of_registry (Registry.beside_leave r.registry b) rfl rfl rfl rfl,.inl rfl⟩
    · exact ⟨.refl b r,.inl rfl⟩

/-- A datagram touches nothing but what is kept of its address, and at most one frame goes out, to
that address. -/
theorem onDatagram_beside (hs : r.Sound) (b : Address) (raw : Bytes) :
    Beside b r (r.onDatagram b raw).1 ∧
      ((r.onDatagram b raw).2 = [] ∨ ∃ frame, (r.onDatagram b raw).2 = [.send b frame]) := by
  unfold onDatagram
  split
  · exact ⟨.refl b r,.inl rfl⟩
  · split
    · exact ⟨.refl b r,.inl rfl⟩
    · split
      · exact onConnect_beside r b _
      · exact onData_beside hs b _ _
      · exact onClose_beside hs b
      · exact ⟨.refl b r,.inl rfl⟩

def Eager (r : Receiver) : Prop :=
  ∀ w ∈ r.waiting, w.call = .accept → w.woken = false → r.registry.pending = []

theorem eager_start (settings : Settings) : (start settings).Eager := fun _ hw => by cases hw

theorem Eager.same (h : r.Eager) (hw : t.waiting = r.waiting)
    (hp : r.registry.pending = [] → t.registry.pending = []) : t.Eager :=
  fun w hm hc hn => hp (h w (hw ▸ hm) hc hn)

theorem eager_wakeAccepts (r : Receiver) : r.wakeAccepts.Eager := by
  intro w hw hc hn
  rw [waiting_wakeAccepts] at hw
  have hcalled := (mem_of_wake hw hn).2
  rw [hc] at hcalled
  cases hcalled

theorem Eager.rouse (h : r.Eager) (p : PeerId) (hw : t.waiting = r.waiting)
    (hp : r.registry.pending = [] → t.registry.pending = []) : (t.wakeReads p).Eager := by
  intro w hm hc hn
  rw [waiting_wakeReads,hw] at hm
  exact hp (h w (mem_of_wake hm hn).1 hc hn)

theorem pending_attempt (r : Receiver) (call : Call) (hp : r.registry.pending = []) :
    (r.attempt call).2.2.registry.pending = [] := by
  cases call with
  | accept =>
    have hnone : r.acceptNext = none := by
      rw [acceptNext,Registry.accept,hp]
      rfl
    simp only [attempt,hnone]
    split
    · exact hp
    · exact hp
  | read p room =>
    simp only [attempt]
    split
    · exact hp
    · split
      · exact hp
      · split
        · exact (Registry.pending_forgetDrained _ _).trans hp
        · split
          · exact hp
          · exact hp

theorem pending_of_wait (hs : r.Sound) {later : Call} (h : (r.attempt .accept).1 = .wait later) :
    r.registry.pending = [] := by
  simp only [attempt] at h
  split at h
  · cases h
  · split at h
    · rename_i hn
      exact (acceptNext_eq_none_iff hs).mp hn
    · cases h

theorem Eager.enter (h : r.Eager) (hs : r.Sound) (call : Call) : (r.enter call).1.Eager := by
  have ha : (r.attempt call).2.2.Eager :=
    h.same (attempt_waiting r call) (pending_attempt r call)
  simp only [Receiver.enter]
  split
  · exact ha
  · rename_i later ho
    intro w hw hc hn
    rw [ho] at hw
    rcases List.mem_append.mp hw with hw | hw
    · exact ha w hw hc hn
    · obtain rfl := List.mem_singleton.mp hw
      obtain rfl : call = .accept := (attempt_wait ho).symm.trans hc
      exact pending_attempt r _ (pending_of_wait hs ho)

theorem Eager.poll (h : r.Eager) (hs : r.Sound) (k : CallId) : (r.poll k).1.Eager := by
  cases hr : Waiting.ready? r.waiting k with
  | none =>
    rw [poll_none hr]
    exact h
  | some call =>
    intro w hw hc hn
    rw [poll_registry hr]
    rw [poll_waiting hr] at hw
    cases ho : (r.attempt call).1 with
    | answer result =>
      rw [ho] at hw
      exact pending_attempt r call (h w (List.mem_filter.mp hw).1 hc hn)
    | wait later =>
      rw [ho] at hw
      obtain ⟨v,hv,rfl⟩ := List.mem_map.mp hw
      by_cases hk : v.id = k
      · rw [if_pos hk] at hc
        obtain rfl : call = .accept := (attempt_wait ho).symm.trans hc
        exact pending_attempt r _ (pending_of_wait hs ho)
      · rw [if_neg hk] at hc hn
        exact pending_attempt r call (h v hv hc hn)

theorem Eager.onDatagram (h : r.Eager) (a : Address) (raw : Bytes) :
    (r.onDatagram a raw).1.Eager := by
  unfold Receiver.onDatagram
  split
  · exact h
  · split
    · exact h
    · split
      · unfold onConnect
        split
        · split
          · exact h
          · exact h
        · exact h
        all_goals
          split
          · exact eager_wakeAccepts _
          · exact h
      · unfold onData
        split
        · exact h
        · split
          · exact h
          · split
            · exact h
            · simp only
              split
              · exact h.rouse _ rfl fun hp => hp
              · exact h.same rfl fun hp => hp
      · unfold onClose
        split
        · exact h.same rfl fun hp => hp
        · split
          · rename_i hd
            refine h.same rfl fun hp => ?_
            rw [Registry.removePending_eq_some hd]
            show r.registry.pending.eraseP _ = []
            rw [hp]
            rfl
          · exact h
      · exact h

theorem Eager.onTick (h : r.Eager) (p : PeerId) : (r.onTick p).Eager := by
  unfold Receiver.onTick
  split
  · exact h
  · rename_i x hx
    split
    · simp only
      split
      · refine h.rouse p rfl fun hp => ?_
        show Registry.pending (ite _ _ _) = []
        split
        · rename_i hc
          rw [Registry.retire_eq_retiring hc]
          exact hp
        · exact hp
      · exact h.same rfl fun hp => hp
    · exact h

theorem Eager.shut (h : r.Eager) : r.shut.Eager := by
  have hfold : ∀ (ps : List PeerId) (t : Receiver), t.Eager →
      (ps.foldl (fun r p => (r.modify p .teardown).wakeReads p) t).Eager := by
    intro ps
    induction ps with
    | nil => exact fun _ ht => ht
    | cons p ps ih =>
      exact fun t ht => ih _ (ht.rouse p rfl fun hp => hp)
  unfold Receiver.shut
  split
  · exact h
  · exact hfold _ _ (eager_wakeAccepts _)

theorem Eager.make (h : r.Eager) (hs : r.Sound) (m : Move) : (r.make m).1.Eager := by
  cases m with
  | retry k => exact h.poll hs k
  | event e =>
    cases e with
    | datagram a raw => exact h.onDatagram a raw
    | acceptOne => exact h.enter hs .accept
    | acceptAll =>
      simp only [Receiver.make,react]
      split
      · exact h
      · exact fun _ _ _ _ => pending_acceptMany hs (Nat.le_refl _)
    | read a room =>
      simp only [Receiver.make,react]
      split
      · exact h
      · split
        · exact h
        · exact h
        · split
          · exact h
          · exact h.enter hs _
    | tick p => exact h.onTick p
    | close => exact h.shut

/-- What comes out is a frame to the address `b`, or it answers a call that reads from `b` or that
has `b` accepted. -/
inductive Concerns (b : Address) (r : Receiver) : Output → Prop
  | frame (frame : Frame) : Concerns b r (.send b frame)
  | read {k : CallId} {p : PeerId} {room : Nat} {x : Peer} (hc : (k,.read p room) ∈ r.calling)
      (hx : r.registry.peers[p]? = some x) (hb : x.addr = b) (data : Bytes) :
      Concerns b r (.finish k (.bytes data))
  | accept {k : CallId} (hc : (k,.accept) ∈ r.calling) : Concerns b r (.finish k (.accepted b))

def frames (os : List Output) : Nat := os.countP fun
  | .send _ _ => true
  | .finish _ _ => false

theorem frames_append (os ps : List Output) : frames (os ++ ps) = frames os + frames ps :=
  List.countP_append

theorem onDatagram_outputs (hs : r.Sound) (b : Address) (raw : Bytes) :
    frames (r.onDatagram b raw).2 ≤ 1 ∧ ∀ o ∈ (r.onDatagram b raw).2, Concerns b r o := by
  rcases (onDatagram_beside hs b raw).2 with h | ⟨frame,h⟩
  · rw [h]
    exact ⟨Nat.zero_le _,fun o ho => by cases ho⟩
  · rw [h]
    refine ⟨Nat.le_refl _,fun o ho => ?_⟩
    rw [List.mem_singleton.mp ho]
    exact .frame frame

/-- The calls that are woken by a datagram of `b` read from it or wait for it to be accepted, and
at most `n` frames are still to go out. -/
structure Stirred (b : Address) (n : Nat) (r t : Receiver) : Prop extends Beside b r t where
  sound : t.Sound
  numbered : t.Numbered
  opened : t.closing = false
  reads : ∀ w ∈ t.waiting, w.woken = true → ∀ p room, w.call = .read p room →
    ∃ x, r.registry.peers[p]? = some x ∧ x.addr = b
  accepts : ∀ w ∈ t.waiting, w.woken = true → w.call = .accept →
    (∀ e ∈ t.registry.pending, e.1 = b) ∧ t.registry.pending.length ≤ n
  called : ∀ e ∈ t.calling, e ∈ r.calling

/-- The calls that read from other addresses do not notice that a call tries that does not. -/
theorem beside_poll (hn : t.Numbered) {k : CallId} {call : Call}
    (hr : Waiting.ready? t.waiting k = some call) (hf : t.foreign b call = false)
    (hb : t.registry.Beside b (t.attempt call).2.2.registry) : Beside b t (t.poll k).1 := by
  obtain ⟨w,hw,hid,hcall,_⟩ := Waiting.awake_of_ready? hr
  refine ⟨by rw [poll_registry hr]; exact hb,(poll_alike t k).1,(poll_alike t k).2,
    calls_poll t k,?_⟩
  rw [poll_waiting hr]
  refine Waiting.filter_settle (fun call => t.foreign b call) (fun v hv hvk => ?_) fun later ho => ?_
  · obtain rfl := List.inj_on_of_nodup_map hn.nodup hv hw (hvk.trans hid.symm)
    rw [hcall,hf]
  · rw [attempt_wait ho,hf]

theorem attempt_read_beside {room : Nat} (hx : t.registry.peers[p]? = some x) (hb : x.addr = b)
    (hr : 0 < room) :
    t.registry.Beside b (t.attempt (.read p room)).2.2.registry ∧
      (t.attempt (.read p room)).2.1 = [] ∧
      (t.attempt (.read p room)).2.2.registry.pending = t.registry.pending ∧
      ∀ result, (t.attempt (.read p room)).1 = .answer result → ∃ data, result = .bytes data := by
  rw [attempt_read hx hr]
  split
  · exact ⟨Registry.beside_modify hx hb rfl,rfl,rfl,
      fun result ho => ⟨(x.inbox.read room).1,(Outcome.answer.inj ho).symm⟩⟩
  · split
    · exact ⟨Registry.beside_forget hx hb,rfl,Registry.pending_forgetDrained _ _,
        fun result ho => ⟨[],(Outcome.answer.inj ho).symm⟩⟩
    · split
      · exact ⟨.refl b _,rfl,rfl,fun result ho => ⟨[],(Outcome.answer.inj ho).symm⟩⟩
      · exact ⟨.refl b _,rfl,rfl,fun result ho => by cases ho⟩

/-- If only `b` waits, a call to accept has `b` accepted and tells it, or it waits on. -/
theorem attempt_accept_beside (hs : t.Sound) (ho : t.closing = false)
    (hb : ∀ e ∈ t.registry.pending, e.1 = b) :
    t.attempt .accept = (.wait .accept,[],t) ∨
      ∃ frame u, t.attempt .accept = (.answer (.accepted b),[.send b frame],u) ∧
        t.registry.Beside b u.registry ∧ (∀ e ∈ u.registry.pending, e.1 = b) ∧
        u.registry.pending.length + 1 = t.registry.pending.length := by
  simp only [attempt,ho,Bool.false_eq_true,if_false]
  split
  · exact .inl rfl
  · rename_i a frame u hn
    obtain ⟨p,s,x,ha,hx,rfl,_,rfl⟩ := acceptNext_eq_some hn
    obtain ⟨hbeside,y,hy,hyb⟩ := Registry.beside_accept hs.registry hb ha
    rw [hx] at hy
    obtain rfl := Option.some.inj hy
    obtain ⟨e,rest,hp,rfl⟩ := Registry.accept_eq_some_iff.mp ha
    refine .inr ⟨frame,_,by rw [hyb],hbeside.trans (Registry.beside_modify hx hyb rfl),?_,?_⟩
    · intro f hf
      exact hb f (by rw [hp]; exact List.mem_cons_of_mem _ hf)
    · rw [hp]
      rfl

theorem Stirred.poll {n : Nat} (h : Stirred b n r t) (k : CallId) :
    ∃ m, Stirred b m r (t.poll k).1 ∧ frames (t.poll k).2 + m ≤ n ∧
      ∀ o ∈ (t.poll k).2, Concerns b r o := by
  cases hr : Waiting.ready? t.waiting k with
  | none =>
    rw [poll_none hr]
    exact ⟨n,h,Nat.le_of_eq (Nat.zero_add n),fun o ho => by cases ho⟩
  | some call =>
    obtain ⟨w,hw,rfl,rfl,hwoken⟩ := Waiting.awake_of_ready? hr
    have hcalled : (w.id,w.call) ∈ r.calling := h.called _ (List.mem_map.mpr ⟨w,hw,rfl⟩)
    have hnext : ∀ m, Beside b t (t.poll w.id).1 →
        (∀ v ∈ t.waiting, v.woken = true → v.call = .accept →
          (∀ e ∈ (t.attempt w.call).2.2.registry.pending, e.1 = b) ∧
            (t.attempt w.call).2.2.registry.pending.length ≤ m) →
        Stirred b m r (t.poll w.id).1 := fun m hb hpend => {
      toBeside := h.toBeside.trans hb
      sound := h.sound.poll w.id
      numbered := h.numbered.make (.retry w.id)
      opened := (poll_alike t w.id).2.trans h.opened
      reads := fun v hv hvw => h.reads v (awake_poll hv hvw).1 hvw
      accepts := fun v hv hvw hc => by
        rw [poll_registry hr]
        exact hpend v (awake_poll hv hvw).1 hvw hc
      called := fun e he => h.called e (calling_poll he) }
    rw [poll_finished hr]
    cases hcall : w.call with
    | read p room =>
      obtain ⟨x,hx,hb⟩ := h.reads w hw hwoken p room hcall
      obtain ⟨y,hy,hyb⟩ := h.registry.record hx hb
      rw [hcall] at hr hcalled hnext
      obtain ⟨hbeside,hsent,hpending,hanswer⟩ :=
        attempt_read_beside hy hyb (h.sound.room w hw p room hcall)
      have hpoll := beside_poll h.numbered hr (foreign_of_record hy hyb room) hbeside
      refine ⟨n,hnext n hpoll fun v hv hvw hc => by rw [hpending]; exact h.accepts v hv hvw hc,?_⟩
      unfold finished
      split
      · rename_i result ho
        obtain ⟨data,rfl⟩ := hanswer result ho
        rw [hsent]
        refine ⟨by simp [frames],fun o ho => ?_⟩
        rw [List.mem_singleton.mp ho]
        exact .read hcalled hx hb data
      · rw [hsent]
        exact ⟨Nat.le_of_eq (Nat.zero_add n),fun o ho => by cases ho⟩
    | accept =>
      obtain ⟨hb,hlen⟩ := h.accepts w hw hwoken hcall
      rw [hcall] at hr hcalled hnext
      rcases attempt_accept_beside h.sound h.opened hb with
        ho | ⟨frame,u,ho,hbeside,hrest,hless⟩
      · have hpoll := beside_poll h.numbered hr rfl (by rw [ho]; exact .refl b _)
        refine ⟨n,hnext n hpoll fun v hv hvw hc => ?_,?_⟩
        · rw [ho]
          exact h.accepts v hv hvw hc
        · rw [ho]
          exact ⟨Nat.le_of_eq (Nat.zero_add n),fun o ho => by cases ho⟩
      · have hpoll := beside_poll h.numbered hr rfl (by rw [ho]; exact hbeside)
        refine ⟨n - 1,hnext (n - 1) hpoll fun v hv hvw hc => ?_,?_⟩
        · rw [ho]
          refine ⟨hrest,?_⟩
          show u.registry.pending.length ≤ n - 1
          omega
        · rw [ho]
          refine ⟨?_,fun o ho => ?_⟩
          · show 1 + (n - 1) ≤ n
            omega
          · rcases List.mem_cons.mp ho with rfl | ho
            · exact .frame frame
            · rw [List.mem_singleton.mp ho]
              exact .accept hcalled

theorem Stirred.chain {n : Nat} (h : Stirred b n r t) (ks : List CallId) :
    Beside b r (chain Receiver.poll t ks).1 ∧
      frames (ReliableTransport.chain Receiver.poll t ks).2 ≤ n ∧
      ∀ o ∈ (ReliableTransport.chain Receiver.poll t ks).2, Concerns b r o := by
  induction ks generalizing t n with
  | nil => exact ⟨h.toBeside,Nat.zero_le _,fun o ho => by cases ho⟩
  | cons k ks ih =>
    obtain ⟨m,hnow,hsent,hos⟩ := h.poll k
    obtain ⟨hlater,hmore,hrest⟩ := ih hnow
    rw [chain_cons]
    refine ⟨hlater,?_,fun o ho => (List.mem_append.mp ho).elim (hos o) (hrest o)⟩
    rw [frames_append]
    omega

section

variable {w : Waiting Call}

theorem Asleep.not_mem (h : r.Asleep) (hw : w.woken = true) : w ∉ r.waiting := fun hm => by
  rw [h w hm] at hw
  cases hw

theorem awake_onConnect (ha : r.Asleep) {fragment : Int32}
    (hw : w ∈ (r.onConnect b fragment).1.waiting) (hwoken : w.woken = true) :
    w.call = .accept ∧ (r.onConnect b fragment).2 = [] ∧
      (r.onConnect b fragment).1.registry.pending =
        r.registry.pending ++ [(b,r.registry.peers.length)] := by
  unfold onConnect at hw ⊢
  split at hw
  · split at hw
    · exact absurd hw (ha.not_mem hwoken)
    · exact absurd hw (ha.not_mem hwoken)
  · exact absurd hw (ha.not_mem hwoken)
  all_goals
    split at hw
    · rename_i hadm
      simp only [hadm,if_true]
      obtain ⟨v,hv,rfl⟩ := List.mem_map.mp hw
      refine ⟨?_,trivial,?_⟩
      · rw [ha v hv] at hwoken
        simpa using hwoken
      · show (Registry.enqueue _ _ _).pending = _
        rw [Registry.pending_enqueue]
        rfl
    · exact absurd hw (ha.not_mem hwoken)

theorem awake_onData (hs : r.Sound) (ha : r.Asleep) {fragment : Int32} {payload : Bytes}
    (hw : w ∈ (r.onData b fragment payload).1.waiting) (hwoken : w.woken = true) :
    ∃ p room x, w.call = .read p room ∧ r.registry.peers[p]? = some x ∧ x.addr = b := by
  cases hc : r.registry.connected.get? b with
  | none =>
    rw [onData_of_none hc] at hw
    exact absurd hw (ha.not_mem hwoken)
  | some p =>
    obtain ⟨x,hx,hb,_⟩ := hs.registry.connected b p hc
    cases hcl : x.closing with
    | true =>
      rw [onData_of_closing hc hx hcl] at hw
      exact absurd hw (ha.not_mem hwoken)
    | false =>
      cases ho : x.inbox.offer fragment payload with
      | none =>
        rw [onData_of_refused hc hx hcl ho] at hw
        exact absurd hw (ha.not_mem hwoken)
      | some inbox =>
        rw [onData_of_taken hc hx hcl ho] at hw
        obtain ⟨v,hv,rfl⟩ := List.mem_map.mp hw
        have hv : v ∈ r.waiting := hv
        simp only [ha v hv,Bool.false_or] at hwoken
        cases hcall : v.call with
        | accept =>
          rw [hcall] at hwoken
          cases hwoken
        | read q room =>
          rw [hcall] at hwoken
          obtain rfl : q = p := by simpa using hwoken
          exact ⟨q,room,x,rfl,hx,hb⟩

theorem waiting_onClose (r : Receiver) (b : Address) : (r.onClose b).1.waiting = r.waiting := by
  unfold onClose
  split
  · rfl
  · split <;> rfl

theorem awake_onDatagram (hs : r.Sound) (ha : r.Asleep)
    (hw : w ∈ (r.onDatagram b raw).1.waiting) (hwoken : w.woken = true) :
    (w.call = .accept ∧ (r.onDatagram b raw).2 = [] ∧ (r.onDatagram b raw).1.registry.pending =
        r.registry.pending ++ [(b,r.registry.peers.length)]) ∨
      ∃ p room x, w.call = .read p room ∧ r.registry.peers[p]? = some x ∧ x.addr = b := by
  have hnone := ha.not_mem hwoken
  cases hopen : r.closing with
  | true =>
    rw [onDatagram_closed hopen] at hw
    exact absurd hw hnone
  | false =>
    unfold onDatagram at hw ⊢
    simp only [hopen,Bool.false_eq_true,if_false] at hw ⊢
    cases hf : Frame.receive raw with
    | error e =>
      rw [hf] at hw
      exact absurd hw hnone
    | ok frame =>
      simp only [hf] at hw ⊢
      cases hk : frame.kind with
      | rcon =>
        rw [hk] at hw
        exact .inl (awake_onConnect ha hw hwoken)
      | data =>
        rw [hk] at hw
        exact .inr (awake_onData hs ha hw hwoken)
      | rcls =>
        rw [hk] at hw
        exact absurd (waiting_onClose r b ▸ hw) hnone
      | unkn | acon | adat | acls =>
        rw [hk] at hw
        exact absurd hw hnone

end

/-- All that follows from a datagram of `b` is the concern of `b`, and one frame at most goes out. -/
theorem step_beside (hs : r.Sound) (hn : r.Numbered) (ha : r.Asleep) (he : r.Eager) (b : Address)
    (raw : Bytes) :
    Beside b r (r.step (.datagram b raw)).1 ∧ frames (r.step (.datagram b raw)).2 ≤ 1 ∧
      ∀ o ∈ (r.step (.datagram b raw)).2, Concerns b r o := by
  have hb := (onDatagram_beside hs b raw).1
  obtain ⟨hframes,hconcerns⟩ := onDatagram_outputs hs b raw
  have hcalled : (r.onDatagram b raw).1.calling = r.calling := calling_onDatagram b raw
  cases hopen : r.closing with
  | true =>
    rw [step,show r.react (.datagram b raw) = (r,[]) from onDatagram_closed hopen raw]
    simp only [settle_of_asleep ha]
    exact ⟨.refl b r,Nat.zero_le _,fun o ho => by cases ho⟩
  | false =>
    have hstirred : Stirred b (1 - frames (r.onDatagram b raw).2) r (r.onDatagram b raw).1 := {
      toBeside := hb
      sound := hs.react (.datagram b raw)
      numbered := hn.make (.event (.datagram b raw))
      opened := hb.closing.trans hopen
      reads := fun w hw hwoken p room hc => by
        rcases awake_onDatagram hs ha hw hwoken with ⟨hacc,_⟩ | ⟨q,_,x,hread,hx,hxb⟩
        · rw [hc] at hacc
          cases hacc
        · rw [hc] at hread
          obtain ⟨rfl,_⟩ := Call.read.inj hread
          exact ⟨x,hx,hxb⟩
      accepts := fun w hw hwoken hc => by
        rcases awake_onDatagram hs ha hw hwoken with ⟨_,hnone,hp⟩ | ⟨_,_,_,hread,_⟩
        · have hm : (w.id,w.call) ∈ r.calling := hcalled ▸ List.mem_map.mpr ⟨w,hw,rfl⟩
          obtain ⟨v,hv,hve⟩ := List.mem_map.mp hm
          have hempty := he v hv ((Prod.mk.inj hve).2.trans hc) (ha v hv)
          rw [hp,hnone,hempty]
          exact ⟨fun e hm => by rw [List.mem_singleton.mp hm],Nat.le_refl _⟩
        · rw [hc] at hread
          cases hread
      called := fun e hm => hcalled ▸ hm }
    obtain ⟨hsettled,hmore,hrest⟩ := hstirred.chain (Waiting.ready (r.onDatagram b raw).1.waiting)
    refine ⟨hsettled,?_,fun o ho => (List.mem_append.mp ho).elim (hconcerns o) (hrest o)⟩
    show frames ((r.onDatagram b raw).2 ++ _) ≤ 1
    rw [frames_append]
    exact Nat.le_trans (Nat.add_le_add_left hmore _) (by omega)

end Receiver
end ReliableTransport
