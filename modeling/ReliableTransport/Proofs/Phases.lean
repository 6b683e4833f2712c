import Mathlib.Data.List.Induction
import ReliableTransport.Proofs.Discards
import ReliableTransport.Proofs.Errands
import ReliableTransport.Proofs.Ledger

/-! The lives of the connections of a sender, as their numbers show them. Every number goes from
unmade through a handshake, a connection and a drain to be gone, and each step has its causes
(`Edge`, `make_edge`): the remote opens a connection with the first frame in which it accepts, and
only a call to disconnect drains it. The table, the count of connections and the answers to calls
follow the phases of the numbers (`course_along_play`). -/
namespace ReliableTransport

namespace Connection

open Sender (Settings)

/-- What the state of a connection to which `log` has happened says of its handshake. -/
structure Postured (x : Connection) (log : List Happening) : Prop where
  alive : x.closed = false → x.listening = true ∧ x.state ≠ .closed
  fresh : x.state = .handshaking → .opened ∉ log
  met : x.state = .connected → .opened ∈ log

theorem postured_start (id : ConnId) (bound remote : Address) (threshold : Duration) (now : Nat) :
    Postured (start id bound remote threshold now) [.sent requestFrame] where
  alive := fun _ => ⟨rfl,by simp [start]⟩
  fresh := fun _ => by simp
  met := fun h => by cases h

section

variable {settings : Settings} {asking lasting : Prop} {x y : Connection}
  {log hs : List Happening}

theorem Postured.keep (h : Postured x log) (hc : y.closed = x.closed)
    (hl : y.listening = x.listening) (hst : y.state = x.state) (ho : .opened ∉ hs) :
    Postured y (log ++ hs) where
  alive := by rw [hc,hl,hst]; exact h.alive
  fresh := by
    rw [hst,List.mem_append,not_or]
    exact fun hx => ⟨h.fresh hx,ho⟩
  met := by
    rw [hst]
    exact fun hx => List.mem_append_left _ (h.met hx)

theorem Postured.stroke (h : Postured x log) (hs' : Stroke settings asking lasting x hs y) :
    Postured y (log ++ hs) := by
  cases hs' with
  | drain => exact ⟨fun hc => ⟨(h.alive hc).1,by simp⟩,by simp,by simp⟩
  | stop _ => exact h.keep rfl rfl rfl (by simp)
  | ask _ => exact h.keep rfl rfl rfl (by simp)
  | hold k _ _ _ _ => exact h.keep rfl rfl rfl (by simp)
  | leave _ _ _ => exact h.keep rfl rfl rfl (by simp)
  | accept _ _ _ => exact ⟨fun hc => ⟨(h.alive hc).1,by simp⟩,by simp,by simp⟩
  | ignore _ _ _ => exact h.keep rfl rfl rfl (by simp)
  | pump now _ _ _ => exact h.keep rfl rfl rfl (by simp)
  | heed _ _ => exact h.keep rfl rfl rfl (by simp)
  | dismiss _ _ => exact h.keep rfl rfl rfl (by simp)
  | pass _ => exact h.keep rfl rfl rfl (by simp)
  | wait _ _ => exact h.keep rfl rfl rfl (by simp)
  | lapse _ _ => exact ⟨by simp [teardown],by simp [teardown],by simp [teardown]⟩
  | shut => exact ⟨by simp [teardown],by simp [teardown],by simp [teardown]⟩

end

end Connection

namespace Sender

open Connection

variable {s t : Sender} {m : Move} {c d : ConnRef} {x : Connection}

theorem postured_play (settings : Settings) (ms : List Move) (c : ConnRef) :
    ∀ x, ((start settings).play ms).1.conns[c]? = some x →
      Postured x (chronicle c (start settings) ms) :=
  chronicle_induct settings ms c
    (fun id bound remote now => postured_start id bound remote settings.threshold now)
    fun _ _ _ _ _ h hs => h.stroke hs

theorem opened_of_draining (settings : Settings) (ms : List Move) {c : ConnRef}
    (hf : Few (chronicle c (start settings) ms)) {f : Face}
    (hl : ((start settings).play ms).1.look c = some f) (hst : f.state = .draining) :
    .opened ∈ chronicle c (start settings) ms := by
  induction ms using List.reverseRecOn generalizing f with
  | nil => cases hl
  | append_singleton ms m ih =>
    rw [chronicle_concat] at hf ⊢
    rw [play_concat] at hl
    generalize hs : ((start settings).play ms).1 = s at hl
    have hold : ∀ {g : Face}, s.look c = some g → g.state = .draining →
        .opened ∈ chronicle c (start settings) ms ++ s.happens c m := fun hg hd =>
      List.mem_append_left _ (ih hf.of_append (hs ▸ hg) hd)
    generalize (s.make m).1 = t, s.make_upheaval m = hu at hl
    cases hu with
    | rest _ _ hlook => exact hold (hlook c ▸ hl) hst
    | made _ hc =>
      rw [look_concat hc] at hl
      split at hl
      · exact hold hl hst
      · split at hl
        · rw [← Option.some.inj hl] at hst
          cases hst
        · cases hl
    | opened _ _ _ _ _ _ hc =>
      rw [hc] at hl
      split at hl
      · rw [← Option.some.inj hl] at hst
        cases hst
      · exact hold hl hst
    | left he _ _ hc =>
      rw [hc] at hl
      split at hl
      · rename_i hcd
        subst hcd
        obtain ⟨hlookup,hest⟩ := established_eq_some_iff.mp he
        have hx := (lookup_eq_some_iff.mp hlookup).2
        rw [← hs] at hx
        exact List.mem_append_left _
          ((handshaken_play settings ms _ hf.of_append _ hx).opened_iff.mpr hest)
      · exact hold hl hst
    | lapsed _ _ _ _ hc =>
      rw [hc] at hl
      split at hl
      · rw [← Option.some.inj hl] at hst
        cases hst
      · exact hold hl hst
    | shut _ hc =>
      rw [hc] at hl
      split at hl
      · obtain ⟨g,_,rfl⟩ := Option.map_eq_some_iff.mp hl
        cases hst
      · exact hold hl hst

/-- Every connection that is not torn down listens to its remote, and it is handshaking until the
remote accepts. -/
structure Phased (s : Sender) : Prop where
  alive : ∀ (c : ConnRef) x, s.conns[c]? = some x → x.closed = false →
    x.listening = true ∧ x.state ≠ .closed
  hands : ∀ (c : ConnRef) x, s.conns[c]? = some x → x.closed = false →
    (x.state = .handshaking ↔ x.outbox.established = false)

theorem phased_play (settings : Settings) (ms : List Move)
    (hf : ∀ c, Few (chronicle c (start settings) ms)) :
    ((start settings).play ms).1.Phased where
  alive := fun c x hx => (postured_play settings ms c x hx).alive
  hands := by
    intro c x hx hc
    have hp := postured_play settings ms c x hx
    have hh := handshaken_play settings ms c (hf c) x hx
    constructor
    · intro hst
      have hn := hp.fresh hst
      rw [hh.opened_iff] at hn
      simpa using hn
    · intro he
      have hn := (hh.fresh he).2
      cases hst : x.state with
      | handshaking => rfl
      | connected => exact absurd (hp.met hst) hn
      | draining => exact absurd (opened_of_draining settings ms (hf c) (look_eq hx) hst) hn
      | closed => exact absurd hst (hp.alive hc).2

/-- How far a number has come in the life of a sender. -/
inductive Phase
  | unmade
  | handshaking
  | connected
  | draining
  | gone
  deriving DecidableEq

def Phase.rank : Phase → Nat
  | unmade => 0
  | handshaking => 1
  | connected => 2
  | draining => 3
  | gone => 4

/-- The phase of a number that was handed out, by the state of its open connection. -/
def Phase.ofState : Option ConnState → Phase
  | some .handshaking => .handshaking
  | some .connected => .connected
  | some .draining => .draining
  | some .closed => .gone
  | none => .gone

def phase (s : Sender) (id : ConnId) : Phase :=
  if id = 0 ∨ s.conns.length < id.toNat then .unmade else .ofState (s.state id)

def Phase.ofFace : Option Face → Phase
  | none => .unmade
  | some f => if f.closed then .gone else .ofState (some f.state)

theorem exists_number {id : ConnId} (h : id ≠ 0) : ∃ c, c + 1 < UInt32.size ∧ id = number c := by
  have hpos : id.toNat ≠ 0 := fun hn => h (UInt32.toNat_inj.mp hn)
  have hback : id.toNat - 1 + 1 = id.toNat := Nat.sub_add_cancel (Nat.one_le_iff_ne_zero.mpr hpos)
  refine ⟨id.toNat - 1,hback ▸ id.toNat_lt,?_⟩
  rw [number,hback,UInt32.ofNat_toNat]

theorem number_ne_zero (h : c + 1 < UInt32.size) : number c ≠ 0 := fun hz => by
  have hn := congrArg UInt32.toNat hz
  rw [toNat_number h] at hn
  cases hn

theorem Booked.lookup_iff (hb : s.Booked) (hs : s.Sound) {id : ConnId} :
    s.lookup id = some (c,x) ↔ id = Sender.number c ∧ s.conns[c]? = some x ∧ x.closed = false := by
  rw [lookup_eq_some_iff]
  constructor
  · rintro ⟨hget,hx⟩
    obtain ⟨y,hy,hid,hclosed⟩ := hs.table id c hget
    rw [hx] at hy
    obtain rfl := Option.some.inj hy
    exact ⟨by rw [← hid,hb.numbered hx],hx,hclosed⟩
  · rintro ⟨rfl,hx,hclosed⟩
    have hget := hb.listed c x.face (look_eq hx) hclosed
    exact ⟨by rw [← hb.numbered hx]; exact hget,hx⟩

/-- The number of a connection that is torn down is not found any more. -/
theorem Booked.lookup_eq_none (hb : s.Booked) (hs : s.Sound) (hlt : s.conns.length < UInt32.size)
    (hc : c + 1 < UInt32.size) (hx : ∀ x, s.conns[c]? = some x → x.closed = true) :
    s.lookup (Sender.number c) = none := by
  refine Option.eq_none_iff_forall_ne_some.mpr fun ⟨d,y⟩ hy => ?_
  obtain ⟨hnumber,hd,hopen⟩ := (hb.lookup_iff hs).mp hy
  obtain rfl := number_injective hc
    (Nat.lt_of_le_of_lt (List.getElem?_eq_some_iff.mp hd).1 hlt) hnumber
  rw [hx y hd] at hopen
  cases hopen

theorem Booked.phase_number (hb : s.Booked) (hs : s.Sound) (hlt : s.conns.length < UInt32.size)
    (hc : c + 1 < UInt32.size) : s.phase (Sender.number c) = .ofFace (s.look c) := by
  rw [phase,toNat_number hc]
  cases hx : s.conns[c]? with
  | none =>
    have hle := List.getElem?_eq_none_iff.mp hx
    rw [if_pos (.inr (Nat.lt_succ_of_le hle)),look_eq_none_iff.mpr hle]
    rfl
  | some x =>
    have hclt := (List.getElem?_eq_some_iff.mp hx).1
    rw [if_neg (not_or.mpr ⟨number_ne_zero hc,Nat.not_lt.mpr hclt⟩),look_eq hx,state]
    cases hclosed : x.closed with
    | false =>
      rw [(hb.lookup_iff hs).mpr ⟨rfl,hx,hclosed⟩]
      simp [Phase.ofFace,Connection.face,hclosed]
    | true =>
      rw [hb.lookup_eq_none hs hlt hc fun y hy => by
        rw [hx] at hy
        rw [← Option.some.inj hy,hclosed]]
      simp [Phase.ofFace,Connection.face,hclosed,Phase.ofState]

def Accepts (s : Sender) (m : Move) (id : ConnId) : Prop :=
  ∃ c x raw frame now, s.lookup id = some (c,x) ∧ m = .event (.datagram c x.remote raw now) ∧
    Frame.receive raw = .ok frame ∧ frame.kind = .acon

def Departs (s : Sender) (m : Move) (id : ConnId) : Prop :=
  m = .event (.disconnect id) ∧ ∃ c x, s.lookup id = some (c,x) ∧ x.closing = false

/-- The open connection `id` is torn down, by its owner or because its remote was silent for too
long. -/
def Ends (s : Sender) (m : Move) (id : ConnId) : Prop :=
  ∃ c x, s.lookup id = some (c,x) ∧ (m = .event .close ∨ m = .event (.tick c) ∧
    x.checking = true ∧ (x.silence.tick s.settings.period).expired = true)

/-- What a move does to the phase of a number. It stays as it is unless there is a cause. -/
inductive Edge (s : Sender) (m : Move) (id : ConnId) : Phase → Phase → Prop
  | stay {p : Phase} (hm : isBind m = true → id ≠ number s.conns.length)
      (ha : p = .handshaking → ¬ s.Accepts m id) (hd : p = .connected → ¬ s.Departs m id)
      (he : ¬ s.Ends m id) : Edge s m id p p
  | made (hm : isBind m = true) (hid : id = number s.conns.length) :
      Edge s m id .unmade .handshaking
  | accepted (ha : s.Accepts m id) : Edge s m id .handshaking .connected
  | departed (hd : s.Departs m id) : Edge s m id .connected .draining
  | ended {p : Phase} (he : s.Ends m id) : Edge s m id p .gone

theorem Edge.dead {id : ConnId} {p : Phase} (hl : s.lookup id = none)
    (hm : isBind m = true → id ≠ number s.conns.length) : Edge s m id p p := by
  have hnot : ∀ c x, s.lookup id ≠ some (c,x) := fun c x hx => by
    rw [hl] at hx
    cases hx
  refine .stay hm ?_ ?_ ?_
  · rintro - ⟨c,x,_,_,_,hx,_⟩
    exact hnot c x hx
  · rintro - ⟨_,c,x,hx,_⟩
    exact hnot c x hx
  · rintro ⟨c,x,hx,_⟩
    exact hnot c x hx

theorem Edge.other {id : ConnId} {p : Phase} (hm : isBind m = true → id ≠ number s.conns.length)
    (ha : ∀ c x raw now, m = .event (.datagram c x.remote raw now) → s.lookup id ≠ some (c,x))
    (hd : m ≠ .event (.disconnect id)) (hc : m ≠ .event .close)
    (ht : ∀ c x, m = .event (.tick c) → s.lookup id ≠ some (c,x)) : Edge s m id p p := by
  refine .stay hm ?_ ?_ ?_
  · rintro - ⟨c,x,raw,_,now,hx,he,_⟩
    exact ha c x raw now he hx
  · rintro - ⟨he,_⟩
    exact hd he
  · rintro ⟨c,x,hx,he | ⟨he,_⟩⟩
    · exact hc he
    · exact ht c x he hx

theorem Edge.rank_le {id : ConnId} {p q : Phase} (h : Edge s m id p q) : p.rank ≤ q.rank := by
  cases h with
  | stay => exact Nat.le_refl _
  | made => decide
  | accepted => decide
  | departed => decide
  | ended => cases p <;> decide

theorem not_idle_of_isBind (h : isBind m = true) : ¬ s.Idle m := by
  cases m with
  | retry k => cases h
  | event e =>
    cases e with
    | connect bound remote refused now =>
      cases refused with
      | some cause => cases h
      | none => exact id
    | _ => cases h

/-- A sender that keeps its books, has fewer connections than there are numbers and whose
connections show by their states whether they are accepted. -/
structure Ordered (s : Sender) : Prop extends Sound s, Booked s, Phased s where
  few : s.conns.length < UInt32.size

theorem Ordered.lookup_iff (h : s.Ordered) {id : ConnId} :
    s.lookup id = some (c,x) ↔ id = Sender.number c ∧ s.conns[c]? = some x ∧ x.closed = false :=
  h.toBooked.lookup_iff h.toSound

theorem Ordered.phase_number (h : s.Ordered) (hc : c + 1 < UInt32.size) :
    s.phase (Sender.number c) = .ofFace (s.look c) :=
  h.toBooked.phase_number h.toSound h.few hc

/-- The open connection of a number is the one to which the number was given. -/
theorem Ordered.eq_of_lookup (h : s.Ordered) (hc : c + 1 < UInt32.size)
    (hl : s.lookup (Sender.number c) = some (d,x)) : d = c ∧ s.conns[c]? = some x := by
  obtain ⟨hnumber,hd,_⟩ := h.lookup_iff.mp hl
  have hlt := Nat.lt_of_le_of_lt (List.getElem?_eq_some_iff.mp hd).1 h.few
  obtain rfl := number_injective hc hlt hnumber
  exact ⟨rfl,hd⟩

theorem Ordered.ofFace_eq (h : s.Ordered) {id : ConnId} (hl : s.lookup id = some (c,x)) :
    Phase.ofFace (s.look c) = .ofState (some x.state) := by
  obtain ⟨_,hx,hc⟩ := h.lookup_iff.mp hl
  rw [look_eq hx]
  simp [Phase.ofFace,Connection.face,hc]

theorem Ordered.handshaking_iff (h : s.Ordered) {id : ConnId} (hl : s.lookup id = some (c,x)) :
    Phase.ofFace (s.look c) = .handshaking ↔ x.outbox.established = false := by
  obtain ⟨_,hx,hc⟩ := h.lookup_iff.mp hl
  rw [h.ofFace_eq hl,← h.hands c x hx hc]
  cases x.state <;> simp [Phase.ofState]

theorem edge_made (hc : c + 1 < UInt32.size) (hlt : s.conns.length + 1 < UInt32.size)
    {bound remote : Address} {now : Nat} (hconns : t.conns = s.conns ++
      [Connection.start s.table.allocate.1 bound remote s.settings.threshold now]) :
    Edge s (.event (.connect bound remote none now)) (number c) (.ofFace (s.look c))
      (.ofFace (t.look c)) := by
  rw [look_concat hconns]
  by_cases hce : c = s.conns.length
  · subst hce
    rw [if_neg (Nat.lt_irrefl _),if_pos rfl,look_eq_none_iff.mpr (Nat.le_refl _)]
    exact .made rfl rfl
  · rw [if_neg hce]
    have hsame : (if c < s.conns.length then s.look c else none) = s.look c := by
      split
      · rfl
      · rename_i hge
        exact (look_eq_none_iff.mpr (Nat.le_of_not_lt hge)).symm
    rw [hsame]
    exact .other (fun _ hn => hce (number_injective hc hlt hn)) (fun _ _ _ _ hm => by cases hm)
      (by simp) (by simp) fun _ _ hm => by cases hm

section

variable (h : s.Ordered) (hc : c + 1 < UInt32.size)
include h hc

theorem Ordered.edge_rest (hi : s.Idle m) {p : Phase} (hp : p = .ofFace (s.look c)) :
    Edge s m (Sender.number c) p p := by
  subst hp
  refine .stay (fun hm => absurd hi (not_idle_of_isBind hm)) ?_ ?_ ?_
  · rintro hph ⟨d,x,raw,frame,now,hlookup,rfl,hf,hk⟩
    obtain ⟨rfl,hx⟩ := h.eq_of_lookup hc hlookup
    have hopen := (h.lookup_iff.mp hlookup).2.2
    have he := hi x frame hx (h.alive _ x hx hopen).1 rfl hf hk
    rw [(h.handshaking_iff hlookup).mp hph] at he
    cases he
  · rintro hph ⟨rfl,d,x,hlookup,hcl⟩
    obtain ⟨rfl,hx⟩ := h.eq_of_lookup hc hlookup
    have hest : x.outbox.established = true := by
      rw [← Bool.not_eq_false]
      intro hn
      rw [(h.handshaking_iff hlookup).mpr hn] at hph
      cases hph
    have hclosing := hi _ x (established_eq_some_iff.mpr ⟨hlookup,hest⟩)
    rw [hcl] at hclosing
    cases hclosing
  · rintro ⟨d,x,hlookup,rfl | ⟨rfl,hch,he⟩⟩
    · exact hi
    · have hn := hi x (h.lookup_iff.mp hlookup).2.1 hch
      rw [he] at hn
      cases hn

theorem Ordered.edge_opened (hx : s.conns[d]? = some x) (hl : x.listening = true) {raw : Bytes}
    {frame : Frame} {now : Nat} (hf : Frame.receive raw = .ok frame) (hk : frame.kind = .acon)
    (he : x.outbox.established = false) :
    Edge s (.event (.datagram d x.remote raw now)) (Sender.number c) (.ofFace (s.look c))
      (.ofFace (if c = d then some ⟨x.id,x.closed,.connected⟩ else s.look c)) := by
  by_cases hcd : c = d
  · subst hcd
    have hopen : x.closed = false := by
      rw [← Bool.not_eq_true]
      intro hclosed
      have hdeaf := (h.halted c x hx hclosed).1
      rw [hl] at hdeaf
      cases hdeaf
    have hlookup := h.lookup_iff.mpr ⟨rfl,hx,hopen⟩
    have hph := (h.handshaking_iff hlookup).mpr he
    rw [if_pos rfl,hph,hopen]
    exact .accepted ⟨c,x,raw,frame,now,hlookup,rfl,hf,hk⟩
  · rw [if_neg hcd]
    refine .other (fun hm => by cases hm) (fun e y _ _ hm hlookup => ?_) (by simp) (by simp)
      fun _ _ hm => by cases hm
    have hec := (h.eq_of_lookup hc hlookup).1
    simp only [PartyMove.event.injEq,Event.datagram.injEq] at hm
    exact hcd (hec.symm.trans hm.1.symm)

theorem Ordered.edge_left {id : ConnId} (he : s.established id = some (d,x))
    (hcl : x.closing = false) :
    Edge s (.event (.disconnect id)) (Sender.number c) (.ofFace (s.look c))
      (.ofFace (if c = d then some ⟨x.id,x.closed,.draining⟩ else s.look c)) := by
  obtain ⟨hlookup,hest⟩ := established_eq_some_iff.mp he
  obtain ⟨rfl,hx,hopen⟩ := h.lookup_iff.mp hlookup
  by_cases hcd : c = d
  · subst hcd
    have hne : x.state ≠ .handshaking := fun hst => by
      rw [(h.hands c x hx hopen).mp hst] at hest
      cases hest
    rw [if_pos rfl,h.ofFace_eq hlookup,hopen]
    cases hst : x.state with
    | handshaking => exact absurd hst hne
    | connected => exact .departed ⟨rfl,c,x,hlookup,hcl⟩
    | draining =>
      refine .stay (fun hm => by cases hm) (fun hp => by cases hp) (fun hp => by cases hp) ?_
      rintro ⟨_,_,_,hm | ⟨hm,_⟩⟩
      · cases hm
      · cases hm
    | closed => exact absurd hst (h.alive c x hx hopen).2
  · rw [if_neg hcd]
    refine .other (fun hm => by cases hm) (fun _ _ _ _ hm => by cases hm) (fun hm => ?_) (by simp)
      fun _ _ hm => by cases hm
    have hnumber : Sender.number d = Sender.number c := by simpa using hm
    rw [hnumber] at hlookup
    exact hcd (h.eq_of_lookup hc hlookup).1.symm

theorem Ordered.edge_gone (hx : s.conns[c]? = some x) (hclosed : x.closed = true)
    (hm : isBind m = false) : Edge s m (Sender.number c) (.ofFace (s.look c)) .gone := by
  rw [look_eq hx]
  simp only [Phase.ofFace,Connection.face,hclosed,if_true]
  refine .dead (h.toBooked.lookup_eq_none h.toSound h.few hc fun y hy => ?_) fun hb => ?_
  · rw [hx] at hy
    rw [← Option.some.inj hy,hclosed]
  · rw [hm] at hb
    cases hb

theorem Ordered.edge_lapsed (hx : s.conns[d]? = some x) (hch : x.checking = true)
    (he : (x.silence.tick s.settings.period).expired = true) :
    Edge s (.event (.tick d)) (Sender.number c) (.ofFace (s.look c))
      (.ofFace (if c = d then some ⟨x.id,true,.closed⟩ else s.look c)) := by
  by_cases hcd : c = d
  · subst hcd
    rw [if_pos rfl]
    cases hopen : x.closed with
    | true => exact h.edge_gone hc hx hopen rfl
    | false => exact .ended ⟨c,x,h.lookup_iff.mpr ⟨rfl,hx,hopen⟩,.inr ⟨rfl,hch,he⟩⟩
  · rw [if_neg hcd]
    refine .other (fun hm => by cases hm) (fun _ _ _ _ hm => by cases hm) (by simp) (by simp)
      fun e y hm hlookup => ?_
    have hec := (h.eq_of_lookup hc hlookup).1
    simp only [PartyMove.event.injEq,Event.tick.injEq] at hm
    exact hcd (hec.symm.trans hm.symm)

theorem Ordered.edge_shut :
    Edge s (.event .close) (Sender.number c) (.ofFace (s.look c))
      (.ofFace (if c ∈ s.table.entries.map (·.2) then
        (s.look c).map fun f => ⟨f.id,true,.closed⟩ else s.look c)) := by
  cases hx : s.conns[c]? with
  | none =>
    have hnone : s.look c = none := by
      rw [look,hx]
      rfl
    rw [hnone,Option.map_none,ite_self]
    refine .dead (h.toBooked.lookup_eq_none h.toSound h.few hc fun y hy => ?_) fun hm => by cases hm
    rw [hx] at hy
    cases hy
  | some x =>
    cases hopen : x.closed with
    | true =>
      have hgone := h.edge_gone (m := .event .close) hc hx hopen rfl
      have hboth : Phase.ofFace (if c ∈ s.table.entries.map (·.2) then
          (s.look c).map fun f => ⟨f.id,true,.closed⟩ else s.look c) = .gone := by
        rw [look_eq hx]
        split
        · rfl
        · simp [Phase.ofFace,Connection.face,hopen]
      rw [hboth]
      exact hgone
    | false =>
      have hin : c ∈ s.table.entries.map (·.2) :=
        List.mem_map.mpr ⟨_,Dict.mem_of_get? (h.listed c x.face (look_eq hx) hopen),rfl⟩
      rw [if_pos hin,look_eq hx]
      exact .ended ⟨c,x,h.lookup_iff.mpr ⟨rfl,hx,hopen⟩,.inl rfl⟩

end

/-- The phase of every number moves along an edge. -/
theorem Ordered.make_edge (h : s.Ordered) (m : Move) (ht : (s.make m).1.Ordered) (id : ConnId) :
    Edge s m id (s.phase id) ((s.make m).1.phase id) := by
  by_cases hid : id = 0
  · subst hid
    have hlen := make_length s m
    have hzero : ∀ d, d < (s.make m).1.conns.length → 0 ≠ number d := fun d hd hz =>
      number_ne_zero (Nat.lt_of_le_of_lt hd ht.few) hz.symm
    rw [phase,if_pos (.inl rfl),phase,if_pos (.inl rfl)]
    refine .dead (Option.eq_none_iff_forall_ne_some.mpr fun ⟨d,x⟩ hx => ?_) fun hm => ?_
    · obtain ⟨hz,hd,_⟩ := h.lookup_iff.mp hx
      have hdlt := (List.getElem?_eq_some_iff.mp hd).1
      exact hzero d (by omega) hz
    · refine hzero _ ?_
      rw [hlen,binds,List.countP_singleton,if_pos hm]
      exact Nat.lt_succ_self _
  · obtain ⟨c,hc,rfl⟩ := exists_number hid
    rw [h.phase_number hc,ht.phase_number hc]
    generalize (s.make m).1 = t, s.make_upheaval m = hu at ht
    cases hu with
    | rest hi _ hlook =>
      rw [hlook]
      exact h.edge_rest hc hi rfl
    | made _ hconns =>
      refine edge_made hc ?_ hconns
      have hfew := ht.few
      rwa [hconns,List.length_append,List.length_singleton] at hfew
    | opened hx hl hf hk he _ hlook =>
      rw [hlook]
      exact h.edge_opened hc hx hl hf hk he
    | left he hcl _ hlook =>
      rw [hlook]
      exact h.edge_left hc he hcl
    | lapsed hx hch he _ hlook =>
      rw [hlook]
      exact h.edge_lapsed hc hx hch he
    | shut _ hlook =>
      rw [hlook]
      exact h.edge_shut hc

theorem Ordered.phase_ne_gone_iff (h : s.Ordered) (hc : c < s.conns.length) :
    s.phase (Sender.number c) ≠ .gone ↔ ∃ x, s.lookup (Sender.number c) = some (c,x) := by
  rw [h.phase_number (Nat.lt_of_le_of_lt hc h.few)]
  have hx := List.getElem?_eq_getElem hc
  constructor
  · intro hp
    refine ⟨_,h.lookup_iff.mpr ⟨rfl,hx,?_⟩⟩
    rw [← Bool.not_eq_true]
    intro hclosed
    rw [look_eq hx] at hp
    simp [Phase.ofFace,Connection.face,hclosed] at hp
  · rintro ⟨x,hl⟩
    have hne := (h.alive c x (h.lookup_iff.mp hl).2.1 (h.lookup_iff.mp hl).2.2).2
    rw [h.ofFace_eq hl]
    cases hst : x.state with
    | closed => exact absurd hst hne
    | _ => simp [Phase.ofState]

theorem Ordered.keys_perm (h : s.Ordered) : s.table.entries.keys.Perm
    (((List.range s.conns.length).filter fun c => s.phase (Sender.number c) ≠ .gone).map
      Sender.number) := by
  refine (List.perm_ext_iff_of_nodup h.trim.nodup ?_).mpr fun id => ?_
  · refine List.Nodup.map_on (fun c hc d hd hn => ?_) (List.nodup_range.filter _)
    have hclt := List.mem_range.mp (List.mem_filter.mp hc).1
    have hdlt := List.mem_range.mp (List.mem_filter.mp hd).1
    exact number_injective (Nat.lt_of_le_of_lt hclt h.few) (Nat.lt_of_le_of_lt hdlt h.few) hn
  · rw [Dict.mem_keys_iff,Option.isSome_iff_exists]
    constructor
    · rintro ⟨c,hget⟩
      obtain ⟨x,hx,_⟩ := h.table id c hget
      have hl : s.lookup id = some (c,x) := lookup_eq_some_iff.mpr ⟨hget,hx⟩
      obtain rfl := (h.lookup_iff.mp hl).1
      have hclt := (List.getElem?_eq_some_iff.mp hx).1
      refine List.mem_map.mpr ⟨c,List.mem_filter.mpr ⟨List.mem_range.mpr hclt,?_⟩,rfl⟩
      rw [decide_eq_true_eq,h.phase_ne_gone_iff hclt]
      exact ⟨x,hl⟩
    · intro hid
      obtain ⟨c,hc,rfl⟩ := List.mem_map.mp hid
      obtain ⟨hclt,hp⟩ := List.mem_filter.mp hc
      rw [decide_eq_true_eq,h.phase_ne_gone_iff (List.mem_range.mp hclt)] at hp
      obtain ⟨x,hl⟩ := hp
      exact ⟨c,(lookup_eq_some_iff.mp hl).1⟩

theorem Ordered.size_eq (h : s.Ordered) : s.table.size =
    (List.range s.conns.length).countP fun c => s.phase (Sender.number c) ≠ .gone := by
  have hlen := h.keys_perm.length_eq
  rwa [List.length_map,← List.countP_eq_length_filter,Dict.keys,List.length_map] at hlen

/-- A number is known as long as its connection is accepted and not gone. -/
theorem Ordered.established_eq_none_iff (h : s.Ordered) (id : ConnId) :
    s.established id = none ↔
      s.phase id = .unmade ∨ s.phase id = .handshaking ∨ s.phase id = .gone := by
  cases hl : s.lookup id with
  | none =>
    simp only [established,hl,Option.filter_none,true_iff,phase,state,Option.map_none,
      Phase.ofState]
    split
    · exact .inl rfl
    · exact .inr (.inr rfl)
  | some e =>
    obtain ⟨c,x⟩ := e
    obtain ⟨rfl,hx,hopen⟩ := h.lookup_iff.mp hl
    have hclt := (List.getElem?_eq_some_iff.mp hx).1
    have hhands := h.handshaking_iff hl
    rw [h.phase_number (Nat.lt_of_le_of_lt hclt h.few),hhands,h.ofFace_eq hl]
    have hne := (h.alive c x hx hopen).2
    have hest : s.established (Sender.number c) = none ↔ x.outbox.established = false := by
      simp [established,hl,Option.filter]
    rw [hest]
    constructor
    · exact fun he => .inr (.inl he)
    · rintro (hp | he | hp)
      · cases hst : x.state <;> simp [hst,Phase.ofState] at hp
      · exact he
      · cases hst : x.state with
        | closed => exact absurd hst hne
        | _ => simp [hst,Phase.ofState] at hp

theorem attempt_known (s : Sender) (call : Call) (id : ConnId) :
    (s.attempt call).1 ≠ .answer (.failed (.unknownConnection id)) := by
  cases hx : s.conns[call.conn]? with
  | none => simp [attempt_of_none hx]
  | some x =>
    cases call with
    | connect d =>
      simp only [attempt,hx]
      split
      · simp
      · split
        · simp
        · simp
    | disconnect d =>
      have hx : s.conns[d]? = some x := hx
      rw [attempt_disconnect hx]
      split
      · simp
      · split
        · simp
        · simp
    | send d rest last =>
      have hx : s.conns[d]? = some x := hx
      by_cases hc : rest ≠ [] ∧ x.closed = true
      · simp [attempt_send_of_closed last hx hc]
      · rw [attempt_send last hx hc]
        simp only [tried]
        split
        · simp
        · split
          · simp
          · split
            · simp
            · simp

theorem not_unknown_enter (s : Sender) (call : Call) (k : CallId) (id : ConnId) :
    .finish k (.failed (.unknownConnection id)) ∉ (s.enter call).2 := fun h => by
  rw [enter_finished] at h
  exact attempt_known s call id (of_finished h).2

theorem make_unknown_iff (s : Sender) (m : Move) (k : CallId) (id : ConnId) :
    .finish k (.failed (.unknownConnection id)) ∈ (s.make m).2 ↔ k = s.calls ∧
      (m = .event (.disconnect id) ∨ ∃ data, m = .event (.send id data)) ∧
      s.established id = none := by
  constructor
  · intro h
    cases m with
    | retry j =>
      rw [make] at h
      cases hr : Waiting.ready? s.waiting j with
      | none =>
        rw [poll_none hr] at h
        cases h
      | some call =>
        rw [poll_finished hr] at h
        exact absurd (of_finished h).2 (attempt_known s call id)
    | event e =>
      have hk := react_finish h
      cases e with
      | connect bound remote refused now =>
        cases refused with
        | some cause => simp [make,react,answer] at h
        | none =>
          simp only [make,react,onConnect_eq] at h
          simp at h
      | send number data =>
        simp only [make,react] at h
        split at h
        · rename_i hn
          simp [answer] at h
          exact ⟨hk,.inr ⟨data,by rw [h.2]⟩,by rw [h.2,hn]⟩
        · split at h
          · simp [answer] at h
          · exact absurd h (not_unknown_enter s _ k id)
      | disconnect number =>
        simp only [make,react] at h
        split at h
        · rename_i hn
          simp [answer] at h
          exact ⟨hk,.inl (by rw [h.2]),by rw [h.2,hn]⟩
        · split at h
          · simp [answer] at h
          · exact absurd h (not_unknown_enter _ _ k id)
      | close => simp [make,react,answer] at h
      | datagram d source raw now =>
        exact absurd h ((react_outer s (e := .datagram d source raw now) trivial).2.2 k _)
      | retry d => exact absurd h ((react_outer s (e := .retry d) trivial).2.2 k _)
      | wake d now => exact absurd h ((react_outer s (e := .wake d now) trivial).2.2 k _)
      | tick d => exact absurd h ((react_outer s (e := .tick d) trivial).2.2 k _)
  · rintro ⟨rfl,rfl | ⟨data,rfl⟩,hn⟩
    · simp [make,react,hn,answer]
    · simp [make,react,hn,answer]

structure Asks (s : Sender) (k : CallId) (c : ConnRef) : Prop where
  older : k < s.calls
  made : c < s.conns.length
  held : ∀ call, (k,call) ∈ s.held → call = .connect c

theorem asks_onConnect (hs : s.Sound) (bound remote : Address) (now : Nat) :
    (s.onConnect bound remote now).1.Asks s.calls s.conns.length := by
  rw [onConnect_eq]
  refine ⟨Nat.lt_succ_self _,by simp,fun call hm => ?_⟩
  simp only [Sender.held,List.map_append,List.map_cons,List.map_nil,List.mem_append,
    List.mem_singleton,Prod.mk.injEq,true_and] at hm
  rcases hm with hm | hm
  · exact absurd (hs.older _ hm) (Nat.lt_irrefl _)
  · exact hm

theorem Asks.make {k : CallId} (h : s.Asks k c) (m : Move) : (s.make m).1.Asks k c where
  older := Nat.lt_of_lt_of_le h.older (calls_le_make s m)
  made := lt_length_make h.made m
  held := by
    intro call hm
    cases m with
    | event e =>
      rcases of_react_held hm with hm | ⟨hk,_⟩
      · exact h.held call hm
      · exact absurd h.older (by rw [show k = s.calls from hk]; exact Nat.lt_irrefl _)
    | retry j =>
      cases hr : Waiting.ready? s.waiting j with
      | none =>
        rw [Sender.make,poll_none hr] at hm
        exact h.held call hm
      | some tried =>
        rcases of_poll_held hr hm with ⟨hm,_⟩ | ⟨hk,ho⟩
        · exact h.held call hm
        · obtain rfl : k = j := hk
          obtain rfl := h.held tried (mem_held_of_ready hr)
          rcases attempt_wait_cases ho with hlater | ⟨_,_,_,_,_,hn,_⟩
          · exact hlater
          · cases hn

/-- A call for a connection is told its number, or that it was closed. -/
theorem Asks.finish_make {k : CallId} (h : s.Asks k c) (hb : s.Booked) {m : Move} {result : Result}
    (hm : .finish k result ∈ (s.make m).2) :
    result = .connected (number c) ∨ result = .failed .closed := by
  cases m with
  | event e => exact absurd h.older (by rw [react_finish hm]; exact Nat.lt_irrefl _)
  | retry j =>
    cases hr : Waiting.ready? s.waiting j with
    | none =>
      rw [Sender.make,poll_none hr] at hm
      cases hm
    | some call =>
      rw [Sender.make,poll_finished hr] at hm
      obtain ⟨rfl,ho⟩ := of_finished hm
      obtain rfl := h.held call (mem_held_of_ready hr)
      have hx := List.getElem?_eq_getElem h.made
      simp only [attempt,Call.conn,hx] at ho
      split at ho
      · rw [hb.numbered hx] at ho
        exact .inl (Outcome.answer.inj ho).symm
      · split at ho
        · exact .inr (Outcome.answer.inj ho).symm
        · cases ho

theorem Asks.finish_play {k : CallId} (h : s.Asks k c) (hb : s.Booked) {ms : List Move}
    (hlt : s.conns.length + binds ms < UInt32.size) {result : Result}
    (hm : .finish k result ∈ (s.play ms).2) :
    result = .connected (number c) ∨ result = .failed .closed := by
  induction ms generalizing s with
  | nil => cases hm
  | cons m ms ih =>
    have happ := binds_append [m] ms
    rw [List.singleton_append] at happ
    have hlen := make_length s m
    rw [play_cons] at hm
    rcases List.mem_append.mp hm with hm | hm
    · exact h.finish_make hb hm
    · exact ih (h.make m) (hb.make m (by omega)) (by omega) hm

/-- A new connection gets the next number, and its caller is never told another one. -/
theorem Ordered.next_number (h : s.Ordered) (hm : isBind m = true) (ht : (s.make m).1.Ordered)
    {ms : List Move} (hlt : (s.make m).1.conns.length + binds ms < UInt32.size) :
    (s.make m).1.phase (Sender.number s.conns.length) = .handshaking ∧
      ∀ result, .finish s.calls result ∈ (s.play (m :: ms)).2 →
        result = .connected (Sender.number s.conns.length) ∨ result = .failed .closed := by
  have hcall : ∃ bound remote now, m = .event (.connect bound remote none now) := by
    cases m with
    | retry k => cases hm
    | event e =>
      cases e with
      | connect bound remote refused now =>
        cases refused with
        | some cause => cases hm
        | none => exact ⟨bound,remote,now,rfl⟩
      | _ => cases hm
  obtain ⟨bound,remote,now,rfl⟩ := hcall
  have hasks : (s.make (.event (.connect bound remote none now))).1.Asks s.calls s.conns.length :=
    asks_onConnect h.toSound bound remote now
  constructor
  · rw [ht.phase_number (Nat.lt_of_le_of_lt hasks.made ht.few)]
    simp only [make,react,onConnect_eq,look,List.getElem?_concat_length]
    rfl
  · intro result hr
    rw [play_cons] at hr
    rcases List.mem_append.mp hr with hr | hr
    · simp only [make,react,onConnect_eq] at hr
      simp at hr
    · exact hasks.finish_play ht.toBooked hlt hr

/-- One more period of silence of a connection that is gone touches nothing but that connection. -/
theorem Ordered.beside_tick (h : s.Ordered) (hc : c < s.conns.length)
    (hg : s.phase (Sender.number c) = .gone) : Beside c s (s.onTick c) := by
  have hnone : s.table.get? (Sender.number c) = none := by
    cases hget : s.table.get? (Sender.number c) with
    | none => rfl
    | some d =>
      obtain ⟨x,hx,_⟩ := h.table _ d hget
      have hl : s.lookup (Sender.number c) = some (d,x) := lookup_eq_some_iff.mpr ⟨hget,hx⟩
      obtain ⟨rfl,_⟩ := h.eq_of_lookup (Nat.lt_of_le_of_lt hc h.few) hl
      exact absurd hg ((h.phase_ne_gone_iff hc).mpr ⟨x,hl⟩)
  unfold onTick
  split
  · exact .refl c s
  · rename_i x hx
    split
    · simp only
      split
      · have htable : (s.table.remove x.id).2 = s.table := by
          rw [h.numbered hx]
          exact h.trim.remove_of_none hnone
        have hfirst := beside_modify s c fun conn =>
          { conn with silence := x.silence.tick s.settings.period }
        have hsame : Beside c s { s.modify c fun conn =>
            { conn with silence := x.silence.tick s.settings.period } with
            table := (s.table.remove x.id).2 } := { hfirst with table := htable }
        exact (hsame.trans (beside_modify _ c _)).trans (beside_wakeCalls _ c)
      · exact beside_modify s c _
    · exact .refl c s

/-- What becomes of numbers in the move `m` from `s` and in the moves `more` after it, when `n`
connections were made so far and `log` lists what has happened to them. -/
structure Course (s : Sender) (n : Nat) (log : ConnRef → List Happening) (m : Move)
    (more : List Move) : Prop where
  made : s.conns.length = n
  next : isBind m = true → (s.make m).1.phase (number n) = .handshaking ∧
    ∀ result, .finish s.calls result ∈ (s.play (m :: more)).2 →
      result = .connected (number n) ∨ result = .failed .closed
  refused : ∀ bound remote cause now, m = .event (.connect bound remote (some cause) now) →
    (s.make m).1.table = s.table ∧ (s.make m).1.conns = s.conns ∧
      (s.make m).2 = [.finish s.calls (.failed (.bind bound cause))]
  edge : ∀ id, Edge s m id (s.phase id) ((s.make m).1.phase id)
  first : ∀ c < n, s.phase (number c) = .handshaking → greeted (log c) = false
  onward : ∀ id, (s.phase id).rank ≤ ((s.play (m :: more)).1.phase id).rank
  count : s.table.size = (List.range n).countP fun c => s.phase (number c) ≠ .gone
  storage : s.table.allocated = true ↔ 0 < s.table.size
  unknown : ∀ k id, .finish k (.failed (.unknownConnection id)) ∈ (s.make m).2 ↔ k = s.calls ∧
    (m = .event (.disconnect id) ∨ ∃ data, m = .event (.send id data)) ∧
    (s.phase id = .unmade ∨ s.phase id = .handshaking ∨ s.phase id = .gone)
  late : ∀ c < n, s.phase (number c) = .gone → m = .event (.tick c) →
    Beside c s (s.make m).1 ∧ (s.make m).2 = []

theorem few_of_made (settings : Settings) {ms : List Move}
    (hf : ∀ c < binds ms, Few (chronicle c (start settings) ms)) (c : ConnRef) :
    Few (chronicle c (start settings) ms) := by
  cases hx : ((start settings).play ms).1.conns[c]? with
  | none =>
    rw [(known_play settings ms c).fresh hx]
    unfold Few
    decide
  | some x =>
    have hlt := (List.getElem?_eq_some_iff.mp hx).1
    rw [play_length,start,List.length_nil,Nat.zero_add] at hlt
    exact hf c hlt

theorem ordered_play (settings : Settings) {ms : List Move} (hb : binds ms < UInt32.size)
    (hf : ∀ c, Few (chronicle c (start settings) ms)) :
    ((start settings).play ms).1.Ordered where
  toSound := (sound_start settings).play ms
  toBooked := booked_play settings hb
  toPhased := phased_play settings ms hf
  few := by rwa [play_length,start,List.length_nil,Nat.zero_add]

theorem rank_le_play (settings : Settings) (ms ns : List Move) (hb : binds (ms ++ ns) < UInt32.size)
    (hf : ∀ c, Few (chronicle c (start settings) (ms ++ ns))) (id : ConnId) :
    (((start settings).play ms).1.phase id).rank ≤
      (((start settings).play (ms ++ ns)).1.phase id).rank := by
  induction ns using List.reverseRecOn with
  | nil =>
    simp only [List.append_nil,Nat.le_refl]
  | append_singleton ns m ih =>
    rw [← List.append_assoc] at hb hf ⊢
    have hbefore : binds (ms ++ ns) < UInt32.size := by
      rw [binds_append] at hb
      omega
    have hfew : ∀ c, Few (chronicle c (start settings) (ms ++ ns)) := fun c => by
      have hc := hf c
      rw [chronicle_concat] at hc
      exact hc.of_append
    have hafter := ordered_play settings hb hf
    rw [play_concat] at hafter ⊢
    exact Nat.le_trans (ih hbefore hfew)
      ((ordered_play settings hbefore hfew).make_edge m hafter id).rank_le

/-- As long as a sender makes fewer connections than there are numbers and few payloads are pushed
on each of them, every number takes its course. -/
theorem course_along_play (settings : Settings) (ms : List Move) (m : Move) (more : List Move)
    (hb : binds (ms ++ m :: more) < UInt32.size)
    (hf : ∀ c < binds (ms ++ m :: more), Few (chronicle c (start settings) (ms ++ m :: more))) :
    Course ((start settings).play ms).1 (binds ms)
      (fun c => chronicle c (start settings) ms) m more := by
  have hfew := few_of_made settings hf
  have hlen : ((start settings).play ms).1.conns.length = binds ms := by
    rw [play_length,start,List.length_nil,Nat.zero_add]
  have hsplit : ms ++ m :: more = (ms ++ [m]) ++ more := by simp
  have hnow : binds (ms ++ [m]) < UInt32.size := by
    rw [hsplit,binds_append] at hb
    omega
  have hbefore : binds ms < UInt32.size := by
    rw [binds_append] at hnow
    omega
  have hroom : (((start settings).play ms).1.make m).1.conns.length + binds more < UInt32.size := by
    rw [hsplit,binds_append,binds_append] at hb
    rwa [make_length,hlen]
  have hfnow : ∀ c, Few (chronicle c (start settings) (ms ++ [m])) := fun c => by
    have hc := hfew c
    rw [hsplit,chronicle_append] at hc
    exact hc.of_append
  have hfbefore : ∀ c, Few (chronicle c (start settings) ms) := fun c => by
    have hc := hfnow c
    rw [chronicle_concat] at hc
    exact hc.of_append
  have h := ordered_play settings hbefore hfbefore
  have ht := ordered_play settings hnow hfnow
  rw [play_concat] at ht
  have honward := rank_le_play settings ms (m :: more) hb hfew
  rw [play_append] at honward
  have hfirst : ∀ c < binds ms, ((start settings).play ms).1.phase (number c) = .handshaking →
      greeted (chronicle c (start settings) ms) = false := by
    intro c hc hp
    have hclt : c < ((start settings).play ms).1.conns.length := hlen ▸ hc
    have hx := List.getElem?_eq_getElem hclt
    obtain ⟨x,hl⟩ := (h.phase_ne_gone_iff hclt).mp (by rw [hp]; decide)
    rw [h.phase_number (Nat.lt_of_le_of_lt hclt h.few),h.handshaking_iff hl] at hp
    exact ((handshaken_play settings ms c (hfbefore c) x (h.lookup_iff.mp hl).2.1).fresh hp).1
  generalize ((start settings).play ms).1 = s at *
  exact {
    made := hlen
    next := fun hm => by
      have hnext := h.next_number hm ht hroom
      rwa [hlen] at hnext
    refused := by
      rintro bound remote cause now rfl
      exact ⟨rfl,rfl,rfl⟩
    edge := h.make_edge m ht
    first := hfirst
    onward := honward
    count := hlen ▸ h.size_eq
    storage := h.trim.allocated_iff
    unknown := fun k id => by rw [make_unknown_iff,h.established_eq_none_iff]
    late := by
      rintro c hc hg rfl
      exact ⟨h.beside_tick (hlen ▸ hc) hg,rfl⟩ }

/-- Two connections and a refused call for a third; the first is opened, the owner closes both, and
one more period of silence is counted for the first. -/
theorem course_along_play_lateTick :
    let a : Address := ⟨.localhost,0,4001⟩
    let b : Address := ⟨.localhost,0,4000⟩
    let ss : Settings := ⟨.ofMillis 1500,.ofMillis 500,.ofMillis 100⟩
    let ms : List Move := [.event (.connect a b none 0),.event (.connect a b (some "in use") 0),
      .event (.connect a b none 0),.event (.datagram 0 b (Frame.encode ⟨.acon,0,64,[]⟩) 1),
      .event .close]
    ((start ss).play ms).1.conns.length = 2 ∧ ((start ss).play ms).1.table.size = 0 ∧
      Beside 0 ((start ss).play ms).1 (((start ss).play ms).1.react (.tick 0)).1 := by
  intro a b ss ms
  have hfew : ∀ c < binds (ms ++ [.event (.tick 0)]),
      Few (chronicle c (start ss) (ms ++ [.event (.tick 0)])) := by
    unfold Few
    decide +kernel
  have h := course_along_play ss ms (.event (.tick 0)) [] (by decide +kernel) hfew
  have hgone : ((start ss).play ms).1.phase (number 0) = .gone := by decide +kernel
  have hall : ((List.range (binds ms)).countP fun c =>
      ((start ss).play ms).1.phase (number c) ≠ .gone) = 0 := by decide +kernel
  exact ⟨h.made.trans (by decide +kernel),h.count.trans hall,
    (h.late 0 (by decide +kernel) hgone rfl).1⟩

end Sender
end ReliableTransport
