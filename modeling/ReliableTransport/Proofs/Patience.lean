import ReliableTransport.Proofs.Openings

/-! Why a call of a sender waits. A call that nobody has woken waits for something that is not there
yet, so that none waits for what is already there (`Patient.react`, `Patient.poll`). -/
namespace ReliableTransport

namespace Outbox

/-- What a call may wait for is not there in `c` either if it was not there in `b`. -/
structure Lacks (b c : Outbox) : Prop where
  established : b.established = false → c.established = false
  acked : ∀ fragment, b.acked fragment = false → c.acked fragment = false
  full : b.full = true → c.full = true
  drained : b.drained = false → c.drained = false

theorem Lacks.refl (b : Outbox) : b.Lacks b := ⟨fun h => h,fun _ h => h,fun h => h,fun h => h⟩

theorem lacks_of_eq {b c : Outbox} (ha : c.lastAcked = b.lastAcked) (hs : c.slots = b.slots) :
    b.Lacks c where
  established := by
    intro h
    rwa [established,ha]
  acked := by
    intro fragment h
    rwa [acked,established,ha]
  full := by
    intro h
    rwa [full,hs]
  drained := by
    intro h
    rwa [drained,hs]

theorem lacks_extend (b : Outbox) (pieces : List Bytes) : b.Lacks (b.extend pieces) where
  established := fun h => h
  acked := fun _ h => h
  full := by
    intro h
    rw [full,decide_eq_true_eq] at h ⊢
    rw [slots_extend,List.length_append]
    omega
  drained := by
    intro h
    rw [drained,List.isEmpty_eq_false_iff] at h ⊢
    exact List.append_ne_nil_of_left_ne_nil h pieces

theorem next_keeps (b : Outbox) (now : Nat) (minWindow : Int32) (threshold : Nat) :
    (b.next now minWindow threshold).2.lastAcked = b.lastAcked ∧
      (b.next now minWindow threshold).2.slots = b.slots := by
  have hrest : ∀ cursor, (next.rest now threshold b cursor).2.lastAcked = b.lastAcked ∧
      (next.rest now threshold b cursor).2.slots = b.slots := by
    intro cursor
    unfold next.rest
    split
    · exact ⟨rfl,rfl⟩
    · split
      · exact ⟨rfl,rfl⟩
      · exact ⟨rfl,rfl⟩
  simp only [next]
  split
  · split
    · exact ⟨rfl,rfl⟩
    · exact hrest _
  · exact hrest _

/-- Whatever is sent, the acknowledged point and the payloads held stay as they are. -/
theorem burst_keeps (now : Nat) (minWindow : Int32) (threshold fuel : Nat) (b : Outbox) :
    (burst now minWindow threshold fuel b).2.lastAcked = b.lastAcked ∧
      (burst now minWindow threshold fuel b).2.slots = b.slots := by
  induction fuel generalizing b with
  | zero => exact ⟨rfl,rfl⟩
  | succ fuel ih =>
    obtain ⟨ha,hs⟩ := b.next_keeps now minWindow threshold
    unfold burst
    split
    · rename_i c hn
      rw [hn] at ha hs
      obtain ⟨ha',hs'⟩ := ih c
      exact ⟨ha'.trans ha,hs'.trans hs⟩
    · rename_i c hn
      rw [hn] at ha hs
      exact ⟨ha,hs⟩

theorem lacks_flush (b : Outbox) (now : Nat) (minWindow : Int32) (threshold : Nat) :
    b.Lacks (b.flush now minWindow threshold).2 :=
  lacks_of_eq (burst_keeps _ _ _ _ b).1 (burst_keeps _ _ _ _ b).2

/-- An acknowledgement that releases nothing leaves everything as it is that calls may wait for. -/
theorem lacks_acknowledge {b : Outbox} {pushed : List Bytes} (h : b.Untouched ∨ b.Keeps pushed)
    {fragment window : Int32} {now : Nat} (hn : ¬ 0 < (b.acknowledge fragment window now).1) :
    b.Lacks (b.acknowledge fragment window now).2 := by
  rcases h with h | h
  · rw [acknowledge_of_not_established h.not_established]
    exact .refl b
  · by_cases hw : b.lastAcked.toInt ≤ fragment.toInt ∧ fragment.toInt ≤ b.highestSent.toInt
    · rw [h.acknowledge_of_within window now hw.1 hw.2] at hn ⊢
      have he : fragment = b.lastAcked := by
        apply Int32.toInt_inj.mp
        simp only at hn
        omega
      subst he
      refine lacks_of_eq rfl ?_
      simp
    · rw [h.acknowledge_of_outside window now (by omega)]
      exact .refl b

end Outbox

/-- What a call may wait for is not there in `y` either if it was not there in `x`. -/
structure Connection.Lacks (x y : Connection) : Prop where
  outbox : x.outbox.Lacks y.outbox
  closed : x.closed = false → y.closed = false

namespace Sender

/-- What a call waits for is not there: room for its next piece, if it has any left. -/
def Call.Blocked (s : Sender) : Call → Prop
  | .connect c => ∃ x, s.conns[c]? = some x ∧ x.closed = false ∧ x.outbox.established = false
  | .send c rest last => ∃ x, s.conns[c]? = some x ∧ x.closed = false ∧
      if rest = [] then x.outbox.acked last = false else x.outbox.full = true
  | .disconnect c => ∃ x, s.conns[c]? = some x ∧ x.closed = false ∧ x.outbox.drained = false

def Patient (c : ConnRef) (s : Sender) : Prop :=
  ∀ w ∈ s.waiting, w.call.conn = c → w.woken = false → w.call.Blocked s

theorem Call.Blocked.mono {s t : Sender} {call : Call} (h : call.Blocked s)
    (ht : ∀ x, s.conns[call.conn]? = some x →
      ∃ y, t.conns[call.conn]? = some y ∧ x.Lacks y) : call.Blocked t := by
  cases call with
  | connect c =>
    obtain ⟨x,hx,hc,he⟩ := h
    obtain ⟨y,hy,hl⟩ := ht x hx
    exact ⟨y,hy,hl.closed hc,hl.outbox.established he⟩
  | send c rest last =>
    obtain ⟨x,hx,hc,he⟩ := h
    obtain ⟨y,hy,hl⟩ := ht x hx
    refine ⟨y,hy,hl.closed hc,?_⟩
    split
    · rename_i hr
      rw [if_pos hr] at he
      exact hl.outbox.acked last he
    · rename_i hr
      rw [if_neg hr] at he
      exact hl.outbox.full he
  | disconnect c =>
    obtain ⟨x,hx,hc,he⟩ := h
    obtain ⟨y,hy,hl⟩ := ht x hx
    exact ⟨y,hy,hl.closed hc,hl.outbox.drained he⟩

section

variable {c : ConnRef} {s : Sender}

theorem Patient.of_mem (h : s.Patient c) {t : Sender}
    (hw : ∀ w ∈ t.waiting, w.call.conn = c → w.woken = false → w ∈ s.waiting)
    (ht : ∀ x, s.conns[c]? = some x → ∃ y, t.conns[c]? = some y ∧ x.Lacks y) : t.Patient c := by
  intro w hm hc hn
  have hb := h w (hw w hm hc hn) hc hn
  exact hb.mono fun x hx => by
    rw [hc] at hx ⊢
    exact ht x hx

theorem Patient.modify (h : s.Patient c) (d : ConnRef) {f : Connection → Connection}
    (hf : ∀ x, s.conns[d]? = some x → d = c → x.Lacks (f x)) : (s.modify d f).Patient c := by
  refine h.of_mem (fun w hm _ _ => hm) fun x hx => ?_
  by_cases hd : d = c
  · subst hd
    exact ⟨f x,by simp [Sender.modify,hx],hf x hx rfl⟩
  · exact ⟨x,by rw [Sender.modify,List.getElem?_modify_ne _ _ hd,hx],.refl _,fun h => h⟩

theorem patient_wakeCalls (s : Sender) (c : ConnRef) : (s.wakeCalls c).Patient c := by
  intro w hm hc hn
  obtain ⟨v,_,rfl⟩ := List.mem_map.mp hm
  have hcall : v.call.conn = c := hc
  simp [hcall] at hn

theorem Patient.rouse (h : s.Patient c) (d : ConnRef) (f : Connection → Connection) :
    ((s.modify d f).wakeCalls d).Patient c := by
  by_cases hd : d = c
  · subst hd
    exact patient_wakeCalls _ d
  · have hm := h.modify d (f := f) fun x _ he => absurd he hd
    refine hm.of_mem (fun w hw hc hn => ?_) fun x hx => ⟨x,hx,.refl _,fun h => h⟩
    obtain ⟨v,hv,rfl⟩ := List.mem_map.mp hw
    have hcall : v.call.conn = c := hc
    have hne : ¬ c = d := fun he => hd he.symm
    simp only [hcall,hne,decide_false,Bool.or_false] at hn ⊢
    exact hv

theorem attempt_blocked {call later : Call} (h : (s.attempt call).1 = .wait later) :
    later.Blocked (s.attempt call).2.2 := by
  cases hx : s.conns[call.conn]? with
  | none =>
    rw [attempt_of_none hx] at h
    cases h
  | some x =>
    cases call with
    | connect d =>
      have hx : s.conns[d]? = some x := hx
      rw [attempt_connect_unchanged]
      simp only [attempt,Call.conn,hx] at h
      split at h
      · cases h
      · rename_i he
        split at h
        · cases h
        · rename_i hc
          cases h
          exact ⟨x,hx,Bool.not_eq_true _ ▸ hc,Bool.not_eq_true _ ▸ he⟩
    | disconnect d =>
      have hx : s.conns[d]? = some x := hx
      rw [attempt_disconnect hx] at h ⊢
      split at h
      · cases h
      · rename_i hc
        split at h
        · cases h
        · rename_i hd
          cases h
          simp only [hc,hd,Bool.false_eq_true,if_false]
          exact ⟨x,hx,Bool.not_eq_true _ ▸ hc,Bool.not_eq_true _ ▸ hd⟩
    | send d rest last =>
      have hx : s.conns[d]? = some x := hx
      by_cases hc : rest ≠ [] ∧ x.closed = true
      · rw [attempt_send_of_closed last hx hc] at h
        cases h
      · rw [attempt_send last hx hc] at h ⊢
        have hget : (s.modify d fun conn =>
            { conn with outbox := x.outbox.extend (rest.take x.outbox.room) }).conns[d]? =
            some { x with outbox := x.outbox.extend (rest.take x.outbox.room) } := by
          simp [Sender.modify,hx]
        simp only [tried] at h
        split at h
        · rename_i hleft
          cases h
          have hopen : x.closed = false := by
            have hrest : rest ≠ [] := by
              rintro rfl
              exact hleft (List.drop_nil)
            exact Bool.not_eq_true _ ▸ fun hcl => hc ⟨hrest,hcl⟩
          refine ⟨_,hget,hopen,?_⟩
          rw [if_neg hleft]
          have hlt : x.outbox.room < rest.length := by
            have hpos := List.length_pos_iff.mpr hleft
            rw [List.length_drop] at hpos
            omega
          rw [Outbox.full,decide_eq_true_eq,Outbox.slots_extend,List.length_append,
            List.length_take_of_le (Nat.le_of_lt hlt),Outbox.room]
          omega
        · split at h
          · cases h
          · rename_i hacked
            split at h
            · cases h
            · rename_i hopen
              cases h
              refine ⟨_,hget,Bool.not_eq_true _ ▸ hopen,?_⟩
              rw [if_pos rfl,Outbox.acked_extend]
              exact Bool.not_eq_true _ ▸ hacked

theorem Patient.attempt (h : s.Patient c) (call : Call) : (s.attempt call).2.2.Patient c := by
  rcases attempt_cases s call with he | ⟨d,x,pieces,hx,he⟩ | ⟨d,he⟩
  · rw [he]
    exact h
  · rw [he]
    refine h.modify d fun y hy _ => ?_
    rw [hx] at hy
    obtain rfl := Option.some.inj hy
    exact ⟨Outbox.lacks_extend _ _,fun hc => hc⟩
  · rw [he]
    exact h.rouse d _

theorem Patient.enter (h : s.Patient c) (call : Call) : (s.enter call).1.Patient c := by
  have ha := h.attempt call
  have hb := @attempt_blocked s call
  unfold Sender.enter
  generalize s.attempt call = t at ha hb
  obtain ⟨o,os,t⟩ := t
  cases o with
  | answer result => exact ha
  | wait later =>
    intro w hm hc hn
    rcases List.mem_append.mp hm with hm | hm
    · exact ha w hm hc hn
    · obtain rfl := List.mem_singleton.mp hm
      exact hb rfl

theorem Patient.poll (h : s.Patient c) (k : CallId) : (s.poll k).1.Patient c := by
  cases hr : Waiting.ready? s.waiting k with
  | none =>
    rw [poll_none hr]
    exact h
  | some call =>
    have ha := h.attempt call
    have hb := @attempt_blocked s call
    simp only [Sender.poll,hr]
    generalize s.attempt call = t at ha hb
    obtain ⟨o,os,t⟩ := t
    cases o with
    | answer result =>
      intro w hm hc hn
      exact ha w (List.mem_filter.mp hm).1 hc hn
    | wait later =>
      intro w hm hc hn
      obtain ⟨v,hv,rfl⟩ := List.mem_map.mp hm
      by_cases hk : v.id = k
      · rw [if_pos hk]
        exact hb rfl
      · rw [if_neg hk] at hc hn ⊢
        exact ha v hv hc hn

theorem Patient.onWake (h : s.Patient c) (d : ConnRef) (now : Nat) :
    (s.onWake d now).1.Patient c := by
  unfold Sender.onWake
  split
  · exact h
  · rename_i x hx
    split
    · exact h
    · split
      · exact h.modify d fun _ _ _ => ⟨.refl _,fun hc => hc⟩
      · refine h.modify d fun y hy _ => ?_
        rw [hx] at hy
        obtain rfl := Option.some.inj hy
        exact ⟨Outbox.lacks_flush _ _ _ _,fun hc => hc⟩

theorem Patient.onTick (h : s.Patient c) (d : ConnRef) : (s.onTick d).Patient c := by
  unfold Sender.onTick
  split
  · exact h
  · split
    · rename_i x _ _
      have hm : (s.modify d fun conn =>
          { conn with silence := x.silence.tick s.settings.period }).Patient c :=
        h.modify d fun _ _ _ => ⟨.refl _,fun hc => hc⟩
      simp only
      split
      · have ht : ({ (s.modify d fun conn =>
            { conn with silence := x.silence.tick s.settings.period }) with
              table := (s.table.remove x.id).2 } : Sender).Patient c := hm
        exact ht.rouse d _
      · exact hm
    · exact h

theorem Patient.shut (h : s.Patient c) : s.shut.Patient c := by
  have hfold : ∀ (ds : List ConnRef) (t : Sender), t.Patient c →
      (ds.foldl (fun s d => (s.modify d fun conn => conn.requestClose.teardown).wakeCalls d)
        t).Patient c := by
    intro ds
    induction ds with
    | nil => exact fun _ ht => ht
    | cons d ds ih => exact fun t ht => ih _ (ht.rouse d _)
  exact hfold _ _ h

theorem Patient.onAcknowledge (h : s.Patient c) {d : ConnRef} {x : Connection}
    (hx : s.conns[d]? = some x) {pushed : List Bytes}
    (ho : d = c → x.outbox.Untouched ∨ x.outbox.Keeps pushed) (fragment window : Int32)
    (now : Nat) : (s.onAcknowledge d x fragment window now).Patient c := by
  unfold Sender.onAcknowledge
  simp only
  split
  · exact h.rouse d _
  · rename_i hn
    refine h.modify d fun y hy hd => ?_
    rw [hx] at hy
    obtain rfl := Option.some.inj hy
    exact ⟨Outbox.lacks_acknowledge (ho hd) hn,fun hc => hc⟩

theorem Patient.onDatagram (h : s.Patient c) {pushed : List Bytes}
    (ho : ∀ x, s.conns[c]? = some x → x.outbox.Untouched ∨ x.outbox.Keeps pushed)
    (d : ConnRef) (source : Address) (raw : Bytes) (now : Nat) :
    (s.onDatagram d source raw now).1.Patient c := by
  unfold Sender.onDatagram
  split
  · exact h
  · rename_i x hx
    split
    · exact h
    · split
      · exact h
      · split
        · unfold Sender.onAccept
          split
          · exact h
          · exact (h.rouse d _).onWake d now
        · have hd : d = c → x.outbox.Untouched ∨ x.outbox.Keeps pushed := by
            rintro rfl
            exact ho x hx
          exact h.onAcknowledge hx hd _ _ _
        · exact h.rouse d _
        · exact h

theorem Patient.onConnect (h : s.Patient c) (hs : s.Sound) (bound remote : Address) (now : Nat) :
    (s.onConnect bound remote now).1.Patient c := by
  rw [onConnect_eq]
  intro w hm hc hn
  rcases List.mem_append.mp hm with hm | hm
  · have hlt := hs.about _ (mem_held hm)
    refine (h w hm hc hn).mono fun x hx => ⟨x,?_,.refl _,fun h => h⟩
    rw [List.getElem?_append_left hlt]
    exact hx
  · obtain rfl := List.mem_singleton.mp hm
    refine ⟨_,List.getElem?_concat_length,rfl,?_⟩
    exact (Outbox.untouched_start now).not_established

/-- Whatever happens, a call that nobody wakes is blocked. -/
theorem Patient.react (h : s.Patient c) (hs : s.Sound) {pushed : List Bytes}
    (ho : ∀ x, s.conns[c]? = some x → x.outbox.Untouched ∨ x.outbox.Keeps pushed) (e : Event) :
    (s.react e).1.Patient c := by
  cases e with
  | connect bound remote refused now =>
    cases refused with
    | some cause => exact h
    | none => exact h.onConnect hs bound remote now
  | send id data =>
    simp only [Sender.react]
    split
    · exact h
    · split
      · exact h
      · exact h.enter _
  | disconnect id =>
    simp only [Sender.react]
    split
    · exact h
    · split
      · exact h
      · rename_i d x _ _
        have hm : (s.modify d fun conn => { conn with state := .draining }).Patient c :=
          h.modify d fun _ _ _ => ⟨.refl _,fun hc => hc⟩
        exact hm.enter _
  | close => exact h.shut
  | datagram d source raw now => exact h.onDatagram ho d source raw now
  | retry d =>
    simp only [Sender.react,Sender.onRetry]
    split
    · exact h
    · exact h
  | wake d now => exact h.onWake d now
  | tick d => exact h.onTick d

theorem held_split (hs : s.Sound) {k : CallId} {call : Call} (hk : (k,call) ∈ s.held) :
    ∃ before after, s.held = before ++ (k,call) :: after ∧
      (∀ e ∈ before, e.1 ≠ k) ∧ ∀ e ∈ after, e.1 ≠ k := by
  obtain ⟨before,after,hsplit⟩ := List.append_of_mem hk
  have hnd := hs.nodup
  rw [hsplit,List.map_append,List.map_cons,List.nodup_append] at hnd
  obtain ⟨_,hnodup,hapart⟩ := hnd
  refine ⟨before,after,hsplit,fun e he heq => ?_,fun e he heq => ?_⟩
  · exact hapart e.1 (List.mem_map_of_mem he) k List.mem_cons_self heq
  · exact (List.nodup_cons.mp hnodup).1 (List.mem_map.mpr ⟨e,he,heq⟩)

/-- A call that is not blocked is woken, so that it can try again. -/
theorem Patient.ready (h : s.Patient c) (hs : s.Sound) {k : CallId} {call : Call}
    (hk : (k,call) ∈ s.held) (hc : call.conn = c) (hb : ¬ call.Blocked s) :
    Waiting.ready? s.waiting k = some call := by
  obtain ⟨w,hw,he⟩ := List.mem_map.mp hk
  obtain ⟨rfl,rfl⟩ := Prod.mk.inj he
  have hwoken : w.woken = true := by
    cases hn : w.woken with
    | true => rfl
    | false => exact absurd (h w hw hc hn) hb
  cases hr : Waiting.ready? s.waiting w.id with
  | none =>
    rw [Waiting.ready?,Option.map_eq_none_iff,List.find?_eq_none] at hr
    exact absurd (hr w hw) (by simp [hwoken])
  | some call =>
    have hfound := mem_held_of_ready hr
    obtain ⟨before,after,hsplit,hbefore,hafter⟩ := held_split hs hk
    rw [hsplit,List.mem_append,List.mem_cons] at hfound
    rcases hfound with hm | he | hm
    · exact absurd rfl (hbefore _ hm)
    · rw [(Prod.mk.inj he).2]
    · exact absurd rfl (hafter _ hm)

section

variable {k : CallId} {call : Call} {before after : List (CallId × Call)}

theorem poll_answered (hr : Waiting.ready? s.waiting k = some call) {result : Result}
    (ho : (s.attempt call).1 = .answer result) (hsplit : s.held = before ++ (k,call) :: after)
    (hbefore : ∀ e ∈ before, e.1 ≠ k) (hafter : ∀ e ∈ after, e.1 ≠ k) :
    (s.poll k).1.held = before ++ after := by
  have hothers : ∀ l : List (CallId × Call), (∀ e ∈ l, e.1 ≠ k) →
      (l.filter fun e => e.1 ≠ k) = l := by
    intro l hl
    exact List.filter_eq_self.mpr fun e he => by simpa using hl e he
  have hself : List.filter (fun e : CallId × Call => decide (e.1 ≠ k)) ((k,call) :: after) =
      List.filter (fun e => decide (e.1 ≠ k)) after := by
    simp
  rw [poll_held hr,ho]
  simp only [hsplit,List.filter_append,hself]
  rw [hothers before hbefore,hothers after hafter]

theorem poll_waits (hr : Waiting.ready? s.waiting k = some call) {later : Call}
    (ho : (s.attempt call).1 = .wait later) (hsplit : s.held = before ++ (k,call) :: after)
    (hbefore : ∀ e ∈ before, e.1 ≠ k) (hafter : ∀ e ∈ after, e.1 ≠ k) :
    (s.poll k).1.held = before ++ (k,later) :: after := by
  have hothers : ∀ l : List (CallId × Call), (∀ e ∈ l, e.1 ≠ k) →
      (l.map fun e => if e.1 = k then (k,later) else e) = l := by
    intro l hl
    have hid := List.map_congr_left fun e he =>
      (if_neg (hl e he) : (if e.1 = k then (k,later) else e) = id e)
    rw [hid]
    exact List.map_id l
  rw [poll_held hr,ho]
  simp only [hsplit,List.map_append,List.map_cons,if_true]
  rw [hothers before hbefore,hothers after hafter]

end

end

end Sender
end ReliableTransport
