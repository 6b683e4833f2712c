import ReliableTransport.Proofs.Strokes

/-! Which calls of a sender wait, and for what. The table names open connections only, calls are
told apart by their numbers, and each of them is about a connection that exists (`Sound`). -/
namespace ReliableTransport
namespace Sender

open Connection (Sized leaveFrame)

variable {s t : Sender}

/-- The calls that wait, woken or not. -/
def held (s : Sender) : List (CallId × Call) := s.waiting.map fun w => (w.id,w.call)

theorem mem_held {w : Waiting Call} (h : w ∈ s.waiting) : (w.id,w.call) ∈ s.held :=
  List.mem_map.mpr ⟨w,h,rfl⟩

@[simp] theorem held_wakeCalls (s : Sender) (d : ConnRef) : (s.wakeCalls d).held = s.held := by
  simp [held,wakeCalls,Waiting.wake,Function.comp_def]

@[simp] theorem held_modify (s : Sender) (d : ConnRef) (f : Connection → Connection) :
    (s.modify d f).held = s.held := rfl

theorem mem_held_of_ready {k : CallId} {call : Call}
    (h : Waiting.ready? s.waiting k = some call) : (k,call) ∈ s.held := by
  obtain ⟨w,hw,rfl,rfl⟩ := Waiting.mem_of_ready? h
  exact mem_held hw

/-- What always holds of a sender. -/
structure Sound (s : Sender) : Prop where
  table : ∀ number d, s.table.get? number = some d →
    ∃ x, s.conns[d]? = some x ∧ x.id = number ∧ x.closed = false
  older : ∀ e ∈ s.held, e.1 < s.calls
  nodup : (s.held.map (·.1)).Nodup
  about : ∀ e ∈ s.held, e.2.conn < s.conns.length
  sized : ∀ e ∈ s.held, e.2.Sized
  halted : ∀ (d : ConnRef) x, s.conns[d]? = some x → x.closed = true →
    x.listening = false ∧ x.pumping = false

theorem sound_start (settings : Settings) : (start settings).Sound where
  table := by simp [start,Table.get?,Table.entries,Table.empty]
  older := by simp [start,held]
  nodup := by simp [start,held]
  about := by simp [start,held]
  sized := by simp [start,held]
  halted := by simp [start]

/-- The connection `y` is `x` with changes that no call and no table can tell. -/
structure Alike (x y : Connection) : Prop where
  id : y.id = x.id
  closed : y.closed = x.closed
  deaf : y.listening = true → x.listening = true
  still : y.pumping = true → x.pumping = true ∨ x.closed = false

theorem Sound.modify (h : s.Sound) (d : ConnRef) {f : Connection → Connection}
    (hf : ∀ x, s.conns[d]? = some x → Alike x (f x)) : (s.modify d f).Sound where
  table := by
    intro number e he
    obtain ⟨x,hx,hid,hc⟩ := h.table number e he
    by_cases hde : d = e
    · subst hde
      have ha := hf x hx
      exact ⟨f x,by simp [Sender.modify,hx],by rw [ha.id,hid],by rw [ha.closed,hc]⟩
    · exact ⟨x,by simp only [Sender.modify]; rw [List.getElem?_modify_ne _ _ hde,hx],hid,hc⟩
  older := h.older
  nodup := h.nodup
  about := by
    intro e he
    simp only [Sender.modify,List.length_modify]
    exact h.about e he
  sized := h.sized
  halted := by
    intro e y hy hc
    by_cases hde : d = e
    · subst hde
      simp only [Sender.modify,List.getElem?_modify_eq] at hy
      obtain ⟨x,hx,rfl⟩ := Option.map_eq_some_iff.mp hy
      have ha := hf x hx
      have hh := h.halted d x hx (by rw [← ha.closed,hc])
      constructor
      · exact Bool.eq_false_iff.mpr fun hl => by simp [ha.deaf hl] at hh
      · refine Bool.eq_false_iff.mpr fun hp => ?_
        rcases ha.still hp with hx' | hx'
        · simp [hx'] at hh
        · rw [← ha.closed,hc] at hx'
          cases hx'
    · simp only [Sender.modify] at hy
      rw [List.getElem?_modify_ne _ _ hde] at hy
      exact h.halted e y hy hc

theorem Sound.wakeCalls (h : s.Sound) (d : ConnRef) : (s.wakeCalls d).Sound where
  table := h.table
  older := by rw [held_wakeCalls]; exact h.older
  nodup := by rw [held_wakeCalls]; exact h.nodup
  about := by rw [held_wakeCalls]; exact h.about
  sized := by rw [held_wakeCalls]; exact h.sized
  halted := h.halted

theorem Sound.answer (h : s.Sound) (sent : List Output) (result : Result) :
    (s.answer sent result).1.Sound where
  table := h.table
  older := fun e he => Nat.lt_succ_of_lt (h.older e he)
  nodup := h.nodup
  about := h.about
  sized := h.sized
  halted := h.halted

theorem attempt_cases (s : Sender) (call : Call) :
    (s.attempt call).2.2 = s ∨
    (∃ d x pieces, s.conns[d]? = some x ∧ (s.attempt call).2.2 =
      s.modify d fun conn => { conn with outbox := x.outbox.extend pieces }) ∨
    ∃ d, (s.attempt call).2.2 = (s.modify d .requestClose).wakeCalls d := by
  cases hx : s.conns[call.conn]? with
  | none => exact .inl (by rw [attempt_of_none hx])
  | some x =>
    cases call with
    | connect d => exact .inl (by rw [attempt_connect_unchanged])
    | disconnect d =>
      have hx : s.conns[d]? = some x := hx
      rw [attempt_disconnect hx]
      split
      · exact .inl rfl
      · split
        · exact .inr (.inr ⟨d,rfl⟩)
        · exact .inl rfl
    | send d rest last =>
      have hx : s.conns[d]? = some x := hx
      by_cases hc : rest ≠ [] ∧ x.closed = true
      · exact .inl (by rw [attempt_send_of_closed last hx hc])
      · exact .inr (.inl ⟨d,x,_,hx,by rw [attempt_send last hx hc]⟩)

theorem alike_requestClose (x : Connection) : Alike x x.requestClose :=
  ⟨rfl,rfl,fun h => h,.inl⟩

theorem Sound.attempt (h : s.Sound) (call : Call) : (s.attempt call).2.2.Sound := by
  rcases attempt_cases s call with he | ⟨d,x,pieces,hx,he⟩ | ⟨d,he⟩
  · rw [he]
    exact h
  · rw [he]
    exact h.modify d fun _ _ => ⟨rfl,rfl,fun h => h,.inl⟩
  · rw [he]
    exact (h.modify d fun x _ => alike_requestClose x).wakeCalls d

theorem attempt_held (s : Sender) (call : Call) : (s.attempt call).2.2.held = s.held := by
  rcases attempt_cases s call with he | ⟨d,x,pieces,hx,he⟩ | ⟨d,he⟩
  · rw [he]
  · rw [he,held_modify]
  · rw [he,held_wakeCalls,held_modify]

theorem attempt_calls (s : Sender) (call : Call) : (s.attempt call).2.2.calls = s.calls := by
  rcases attempt_cases s call with he | ⟨d,x,pieces,hx,he⟩ | ⟨d,he⟩
  · rw [he]
  · rw [he]
    rfl
  · rw [he]
    rfl

theorem attempt_length (s : Sender) (call : Call) :
    (s.attempt call).2.2.conns.length = s.conns.length := by
  rcases attempt_cases s call with he | ⟨d,x,pieces,hx,he⟩ | ⟨d,he⟩
  · rw [he]
  · rw [he]
    simp [Sender.modify]
  · rw [he]
    simp [Sender.modify]

/-- A call that waits on is the call it was, or one to send with no new pieces. -/
theorem attempt_wait_cases {call later : Call} (h : (s.attempt call).1 = .wait later) :
    later = call ∨ ∃ d rest last left next, call = .send d rest last ∧
      later = .send d left next ∧ ∀ piece ∈ left, piece ∈ rest := by
  cases hx : s.conns[call.conn]? with
  | none =>
    rw [attempt_of_none hx] at h
    cases h
  | some x =>
    cases call with
    | connect d =>
      simp only [Sender.attempt,hx] at h
      split at h
      · cases h
      · split at h
        · cases h
        · exact .inl (Outcome.wait.inj h).symm
    | disconnect d =>
      have hx : s.conns[d]? = some x := hx
      rw [attempt_disconnect hx] at h
      split at h
      · cases h
      · split at h
        · cases h
        · exact .inl (Outcome.wait.inj h).symm
    | send d rest last =>
      have hx : s.conns[d]? = some x := hx
      by_cases hc : rest ≠ [] ∧ x.closed = true
      · rw [attempt_send_of_closed last hx hc] at h
        cases h
      · rw [attempt_send last hx hc] at h
        simp only [tried] at h
        split at h
        · exact .inr ⟨d,rest,last,_,_,rfl,(Outcome.wait.inj h).symm,fun _ => List.mem_of_mem_drop⟩
        · split at h
          · cases h
          · split at h
            · cases h
            · exact .inr ⟨d,rest,last,_,_,rfl,(Outcome.wait.inj h).symm,by simp⟩

/-- A call that waits on is still about the same connection, and has no new pieces. -/
theorem attempt_wait {call later : Call} (h : (s.attempt call).1 = .wait later) :
    later.conn = call.conn ∧ (call.Sized → later.Sized) ∧ (call.Proper s → later.Proper s) := by
  rcases attempt_wait_cases h with rfl | ⟨d,rest,last,left,next,rfl,rfl,hmem⟩
  · exact ⟨rfl,fun hs => hs,fun hp => hp⟩
  · exact ⟨rfl,fun hs piece hm => hs piece (hmem piece hm),
      fun hp => ⟨hp.1,fun piece hm => hp.2 piece (hmem piece hm)⟩⟩

theorem enter_held (s : Sender) (call : Call) :
    (s.enter call).1.held = s.held ++ match (s.attempt call).1 with
      | .wait later => [(s.calls,later)]
      | .answer _ => [] := by
  have hh := attempt_held s call
  unfold enter
  simp only
  split
  · rename_i result hr
    simp only [hr,List.append_nil]
    exact hh
  · rename_i later hr
    simp only [hr,Waiting.enter]
    rw [← hh]
    simp [held]

/-- A call that waits after a new one has tried did so before, or is the new one. -/
theorem of_enter_held {call : Call} {w : CallId × Call} (h : w ∈ (s.enter call).1.held) :
    w ∈ s.held ∨ (w.1 = s.calls ∧ (s.attempt call).1 = .wait w.2) := by
  rw [enter_held,List.mem_append] at h
  rcases h with h | h
  · exact .inl h
  · cases hr : (s.attempt call).1 with
    | answer result => simp [hr] at h
    | wait later =>
      simp only [hr,List.mem_singleton] at h
      rw [h]
      exact .inr ⟨rfl,rfl⟩

theorem enter_calls (s : Sender) (call : Call) : (s.enter call).1.calls = s.calls + 1 := by
  unfold enter
  simp only
  split
  · simp only [answer,attempt_calls]
  · rfl

theorem enter_table (s : Sender) (call : Call) :
    (s.enter call).1.table = (s.attempt call).2.2.table := by
  unfold enter
  simp only
  split
  · rfl
  · rfl

theorem Sound.enter (h : s.Sound) {call : Call} (hc : call.conn < s.conns.length)
    (hs : call.Sized) : (s.enter call).1.Sound := by
  have ha := h.attempt call
  have hnew : ∀ e ∈ (s.enter call).1.held, e ∈ s.held ∨
      (e.1 = s.calls ∧ e.2.conn = call.conn ∧ e.2.Sized) := by
    intro e he
    rcases of_enter_held he with he | ⟨hk,hr⟩
    · exact .inl he
    · obtain ⟨hconn,hsized,_⟩ := attempt_wait hr
      exact .inr ⟨hk,hconn,hsized hs⟩
  exact {
    table := by
      rw [enter_table]
      simp only [enter_conns]
      exact ha.table
    older := by
      intro e he
      rw [enter_calls]
      rcases hnew e he with he | ⟨he,_⟩
      · exact Nat.lt_succ_of_lt (h.older e he)
      · rw [he]
        exact Nat.lt_succ_self _
    nodup := by
      rw [enter_held]
      cases hr : (s.attempt call).1 with
      | answer result => simpa using h.nodup
      | wait later =>
        simp only [List.map_append,List.map_cons,List.map_nil]
        refine List.nodup_append.mpr ⟨h.nodup,by simp,?_⟩
        intro k hk j hj
        obtain ⟨e,he,rfl⟩ := List.mem_map.mp hk
        rw [List.mem_singleton] at hj
        rw [hj]
        exact Nat.ne_of_lt (h.older e he)
    about := by
      intro e he
      rw [enter_conns,attempt_length]
      rcases hnew e he with he | ⟨_,he,_⟩
      · exact h.about e he
      · rw [he]
        exact hc
    sized := by
      intro e he
      rcases hnew e he with he | ⟨_,_,he⟩
      · exact h.sized e he
      · exact he
    halted := by
      simp only [enter_conns]
      exact ha.halted }

theorem poll_held {k : CallId} {call : Call} (h : Waiting.ready? s.waiting k = some call) :
    (s.poll k).1.held = match (s.attempt call).1 with
      | .wait later => s.held.map fun e => if e.1 = k then (k,later) else e
      | .answer _ => s.held.filter fun e => e.1 ≠ k := by
  have hh := attempt_held s call
  simp only [poll,h]
  split
  · rename_i result hr
    simp only [hr,Waiting.settle]
    rw [← hh,held,held,List.filter_map]
    rfl
  · rename_i later hr
    simp only [hr,Waiting.settle]
    rw [← hh,held,held,List.map_map,List.map_map]
    refine List.map_congr_left fun w _ => ?_
    simp only [Function.comp_def]
    split
    · rfl
    · rfl

/-- A call that waits after one of them has tried again did so before, and is another one, or is
the one that has tried. -/
theorem of_poll_held {k : CallId} {call : Call} (h : Waiting.ready? s.waiting k = some call)
    {w : CallId × Call} (hw : w ∈ (s.poll k).1.held) :
    (w ∈ s.held ∧ w.1 ≠ k) ∨ (w.1 = k ∧ (s.attempt call).1 = .wait w.2) := by
  rw [poll_held h] at hw
  cases ho : (s.attempt call).1 with
  | answer result =>
    simp only [ho] at hw
    exact .inl (by simpa using List.mem_filter.mp hw)
  | wait later =>
    simp only [ho] at hw
    obtain ⟨v,hv,rfl⟩ := List.mem_map.mp hw
    split
    · exact .inr ⟨rfl,rfl⟩
    · rename_i hne
      exact .inl ⟨hv,hne⟩

theorem Call.Proper.mono {call : Call} (h : call.Proper s)
    (he : (∀ x, s.conns[call.conn]? = some x → x.outbox.established = true) →
      ∀ y, t.conns[call.conn]? = some y → y.outbox.established = true) : call.Proper t := by
  cases call with
  | connect c => trivial
  | send c rest last => exact ⟨he h.1,h.2⟩
  | disconnect c => exact he h

theorem proper_of_established {call : Call}
    (h : ∀ x, s.conns[call.conn]? = some x → x.outbox.established = true) (hs : call.Sized) :
    call.Proper s := by
  cases call with
  | connect c => trivial
  | send c rest last => exact ⟨h,hs⟩
  | disconnect c => exact h

/-- A call that waits after one of them has tried again counts on no more than one did before. -/
theorem of_poll_proper {k : CallId} {w : CallId × Call} (hw : w ∈ (s.poll k).1.held) :
    ∃ v ∈ s.held, v.2.conn = w.2.conn ∧ (v.2.Proper s → w.2.Proper s) := by
  cases hr : Waiting.ready? s.waiting k with
  | none =>
    rw [poll_none hr] at hw
    exact ⟨w,hw,rfl,fun hp => hp⟩
  | some call =>
    rcases of_poll_held hr hw with ⟨hw,_⟩ | ⟨_,hw⟩
    · exact ⟨w,hw,rfl,fun hp => hp⟩
    · obtain ⟨hconn,_,hproper⟩ := attempt_wait hw
      exact ⟨_,mem_held_of_ready hr,hconn.symm,hproper⟩

theorem poll_calls (s : Sender) (k : CallId) : (s.poll k).1.calls = s.calls := by
  cases h : Waiting.ready? s.waiting k with
  | none => rw [poll_none h]
  | some call =>
    simp only [poll,h]
    split
    · exact attempt_calls s call
    · exact attempt_calls s call

theorem poll_table {k : CallId} {call : Call} (h : Waiting.ready? s.waiting k = some call) :
    (s.poll k).1.table = (s.attempt call).2.2.table := by
  simp only [poll,h]
  split
  · rfl
  · rfl

theorem Sound.poll (h : s.Sound) (k : CallId) : (s.poll k).1.Sound := by
  cases hr : Waiting.ready? s.waiting k with
  | none =>
    rw [poll_none hr]
    exact h
  | some call =>
    have ha := h.attempt call
    have hk := mem_held_of_ready hr
    have hnew : ∀ e ∈ (s.poll k).1.held, e ∈ s.held ∨
        (e.1 = k ∧ e.2.conn = call.conn ∧ e.2.Sized) := by
      intro e he
      rcases of_poll_held hr he with ⟨he,_⟩ | ⟨hek,ho⟩
      · exact .inl he
      · obtain ⟨hconn,hsized,_⟩ := attempt_wait ho
        exact .inr ⟨hek,hconn,hsized (h.sized _ hk)⟩
    exact {
      table := by
        rw [poll_table hr,poll_conns hr]
        exact ha.table
      older := by
        intro e he
        rw [poll_calls]
        rcases hnew e he with he | ⟨he,_⟩
        · exact h.older e he
        · rw [he]
          exact h.older _ hk
      nodup := by
        rw [poll_held hr]
        cases ho : (s.attempt call).1 with
        | answer result => exact h.nodup.sublist (List.filter_sublist.map _)
        | wait later =>
          have hids : (s.held.map fun e => if e.1 = k then (k,later) else e).map (·.1) =
              s.held.map (·.1) := by
            rw [List.map_map]
            refine List.map_congr_left fun e _ => ?_
            simp only [Function.comp_def]
            split
            · rename_i he
              exact he.symm
            · rfl
          simp only [hids]
          exact h.nodup
      about := by
        intro e he
        rw [poll_conns hr,attempt_length]
        rcases hnew e he with he | ⟨_,he,_⟩
        · exact h.about e he
        · rw [he]
          exact h.about _ hk
      sized := by
        intro e he
        rcases hnew e he with he | ⟨_,_,he⟩
        · exact h.sized e he
        · exact he
      halted := by
        rw [poll_conns hr]
        exact ha.halted }

theorem Sound.onWake (h : s.Sound) (d : ConnRef) (now : Nat) : (s.onWake d now).1.Sound := by
  unfold Sender.onWake
  split
  · exact h
  · split
    · exact h
    · split
      · exact h.modify d fun _ _ => ⟨rfl,rfl,fun h => h,fun h => Bool.noConfusion h⟩
      · exact h.modify d fun _ _ => ⟨rfl,rfl,fun h => h,.inl⟩

theorem Sound.onDatagram (h : s.Sound) (d : ConnRef) (source : Address) (raw : Bytes)
    (now : Nat) : (s.onDatagram d source raw now).1.Sound := by
  unfold Sender.onDatagram
  split
  · exact h
  · rename_i x hx
    split
    · exact h
    · rename_i hg
      rw [Bool.or_eq_true,not_or,Bool.not_eq_true,Bool.not_eq_false'] at hg
      split
      · exact h
      · rename_i frame _
        split
        · unfold onAccept
          split
          · exact h
          · refine Sound.onWake (Sound.wakeCalls (h.modify d fun y hy => ?_) d) d now
            obtain rfl : y = x := by
              rw [hx] at hy
              exact (Option.some.inj hy).symm
            refine ⟨rfl,rfl,fun h => h,fun _ => .inr (Bool.eq_false_iff.mpr fun hc => ?_)⟩
            have hh := (h.halted d y hx hc).1
            rw [hg.1] at hh
            cases hh
        · have hm := h.modify d (f := fun conn => { conn with
            outbox := (x.outbox.acknowledge frame.fragment frame.window now).2
            silence := if conn.closing then conn.silence else conn.silence.reset })
            fun _ _ => ⟨rfl,rfl,fun h => h,.inl⟩
          simp only [onAcknowledge]
          split
          · exact hm.wakeCalls d
          · exact hm
        · exact (h.modify d fun x _ => alike_requestClose x).wakeCalls d
        · exact h

theorem get?_remove (t : Table) (number other : ConnId) :
    (t.remove number).2.get? other = if other = number then none else t.get? other := by
  rw [Table.get?,Table.entries_remove,Dict.get?_erase,Table.get?]

theorem Sound.close (h : s.Sound) (d : ConnRef) (hd : ∀ number, s.table.get? number ≠ some d)
    {f : Connection → Connection}
    (hf : ∀ x, (f x).listening = false ∧ (f x).pumping = false) : (s.modify d f).Sound where
  table := by
    intro number e he
    have hne : ¬ d = e := fun hde => hd number (by rw [hde]; exact he)
    simp only [Sender.modify]
    rw [List.getElem?_modify_ne _ _ hne]
    exact h.table number e he
  older := h.older
  nodup := h.nodup
  about := by
    intro e he
    simp only [Sender.modify,List.length_modify]
    exact h.about e he
  sized := h.sized
  halted := by
    intro e y hy hc
    by_cases hde : d = e
    · subst hde
      simp only [Sender.modify,List.getElem?_modify_eq] at hy
      obtain ⟨x,hx,rfl⟩ := Option.map_eq_some_iff.mp hy
      exact hf x
    · simp only [Sender.modify] at hy
      rw [List.getElem?_modify_ne _ _ hde] at hy
      exact h.halted e y hy hc

theorem Sound.onTick (h : s.Sound) (d : ConnRef) : (s.onTick d).Sound := by
  unfold Sender.onTick
  split
  · exact h
  · rename_i x hx
    split
    · have hm := h.modify d (f := fun conn =>
        { conn with silence := x.silence.tick s.settings.period })
        fun _ _ => ⟨rfl,rfl,fun h => h,.inl⟩
      simp only
      split
      · refine Sound.wakeCalls (Sound.close ?_ d ?_ fun _ => ⟨rfl,rfl⟩) d
        · exact {
            table := by
              intro number e he
              rw [get?_remove] at he
              split at he
              · cases he
              · exact hm.table number e he
            older := hm.older
            nodup := hm.nodup
            about := hm.about
            sized := hm.sized
            halted := hm.halted }
        · intro number he
          rw [get?_remove] at he
          split at he
          · cases he
          · rename_i hne
            obtain ⟨y,hy,hid,_⟩ := h.table number d he
            rw [hx] at hy
            rw [← Option.some.inj hy] at hid
            exact hne hid.symm
      · exact hm
    · exact h

theorem Sound.shut (h : s.Sound) : s.shut.Sound := by
  have hfold : ∀ (cs : List ConnRef) (t : Sender), t.Sound → (∀ number, t.table.get? number = none) →
      (cs.foldl (fun s c => (s.modify c fun conn => conn.requestClose.teardown).wakeCalls c)
        t).Sound := by
    intro cs
    induction cs with
    | nil => exact fun _ ht _ => ht
    | cons d cs ih =>
      intro t ht hn
      refine ih _ (Sound.wakeCalls (ht.close d (fun number he => ?_) fun _ => ⟨rfl,rfl⟩) d) hn
      rw [hn] at he
      cases he
  refine hfold _ _ ?_ fun _ => rfl
  exact {
    table := fun _ _ he => by cases he
    older := h.older
    nodup := h.nodup
    about := h.about
    sized := h.sized
    halted := h.halted }

theorem Sound.onConnect (h : s.Sound) (bound remote : Address) (now : Nat) :
    (s.onConnect bound remote now).1.Sound := by
  refine Sound.enter (s := { s with
    conns := s.conns ++
      [Connection.start s.table.allocate.1 bound remote s.settings.threshold now]
    table := s.table.allocate.2.insert s.table.allocate.1 s.conns.length }) ?_ ?_ trivial
  · exact {
      table := by
        intro number d hd
        simp only [Table.insert,Table.get?,Table.entries,Option.getD_some,Dict.get?_insert] at hd
        split at hd
        · rename_i hn
          obtain rfl := Option.some.inj hd
          exact ⟨Connection.start s.table.allocate.1 bound remote s.settings.threshold now,by simp,
            hn.symm,rfl⟩
        · obtain ⟨x,hx,hid,hc⟩ := h.table number d hd
          have hlt := (List.getElem?_eq_some_iff.mp hx).1
          exact ⟨x,by simp only; rw [List.getElem?_append_left hlt,hx],hid,hc⟩
      older := h.older
      nodup := h.nodup
      about := by
        intro e he
        simp only [List.length_append,List.length_cons,List.length_nil]
        exact Nat.lt_succ_of_lt (h.about e he)
      sized := h.sized
      halted := by
        intro d x hx hc
        simp only at hx
        rw [List.getElem?_append] at hx
        split at hx
        · exact h.halted d x hx hc
        · obtain rfl := List.mem_singleton.mp (List.mem_of_getElem? hx)
          cases hc }
  · simp [Call.conn]

theorem Sound.react (h : s.Sound) (e : Event) : (s.react e).1.Sound := by
  cases e with
  | connect bound remote refused now =>
    cases refused with
    | some cause => exact h.answer _ _
    | none => exact h.onConnect bound remote now
  | send number data =>
    simp only [Sender.react]
    split
    · exact h.answer _ _
    · rename_i d x he
      split
      · exact h.answer _ _
      · have hx := (lookup_eq_some_iff.mp (established_eq_some_iff.mp he).1).2
        exact h.enter (List.getElem?_eq_some_iff.mp hx).1 (proper_send he data).2
  | disconnect number =>
    simp only [Sender.react]
    split
    · exact h.answer _ _
    · rename_i d x he
      split
      · exact h.answer _ _
      · have hx := (lookup_eq_some_iff.mp (established_eq_some_iff.mp he).1).2
        have hm := h.modify d (f := fun conn => { conn with state := .draining })
          fun _ _ => ⟨rfl,rfl,fun h => h,.inl⟩
        refine hm.enter ?_ trivial
        simp only [Sender.modify,List.length_modify]
        exact (List.getElem?_eq_some_iff.mp hx).1
  | close => exact h.shut.answer _ _
  | datagram d source raw now => exact h.onDatagram d source raw now
  | retry d =>
    simp only [Sender.react,onRetry]
    split
    · exact h
    · exact h
  | wake d now => exact h.onWake d now
  | tick d => exact h.onTick d

theorem onWake_held (s : Sender) (d : ConnRef) (now : Nat) : (s.onWake d now).1.held = s.held := by
  unfold Sender.onWake
  split
  · rfl
  · split
    · rfl
    · split
      · rfl
      · rfl

theorem onDatagram_held (s : Sender) (d : ConnRef) (source : Address) (raw : Bytes) (now : Nat) :
    (s.onDatagram d source raw now).1.held = s.held := by
  unfold Sender.onDatagram
  split
  · rfl
  · split
    · rfl
    · split
      · rfl
      · split
        · unfold onAccept
          split
          · rfl
          · rw [onWake_held,held_wakeCalls,held_modify]
        · simp only [onAcknowledge]
          split
          · rw [held_wakeCalls,held_modify]
          · rfl
        · rw [held_wakeCalls,held_modify]
        · rfl

theorem onTick_held (s : Sender) (d : ConnRef) : (s.onTick d).held = s.held := by
  unfold Sender.onTick
  split
  · rfl
  · split
    · simp only
      split
      · rw [held_wakeCalls,held_modify]
        rfl
      · rfl
    · rfl

theorem shut_held (s : Sender) : s.shut.held = s.held := by
  have hfold : ∀ (cs : List ConnRef) (t : Sender),
      (cs.foldl (fun s c => (s.modify c fun conn => conn.requestClose.teardown).wakeCalls c)
        t).held = t.held := by
    intro cs
    induction cs with
    | nil => exact fun _ => rfl
    | cons d cs ih =>
      intro t
      rw [List.foldl_cons,ih,held_wakeCalls,held_modify]
  exact hfold _ _

/-- The call that an event makes, unless it is answered at once. -/
inductive Makes (s : Sender) : Event → Call → Prop
  | connect (bound remote : Address) (now : Nat) :
    Makes s (.connect bound remote none now) (.connect s.conns.length)
  | send {number : ConnId} {d : ConnRef} {x : Connection} (data : Bytes)
    (he : s.established number = some (d,x)) :
    Makes s (.send number data) (.send d (chunks Frame.maxPayload data) 0)
  | disconnect {number : ConnId} {d : ConnRef} {x : Connection}
    (he : s.established number = some (d,x)) : Makes s (.disconnect number) (.disconnect d)

/-- A call that waits after an event did so before, or was made by it and has tried. -/
theorem made_of_react {e : Event} {w : CallId × Call} (h : w ∈ (s.react e).1.held) :
    w ∈ s.held ∨ (w.1 = s.calls ∧
      ∃ (t : Sender) (call : Call), s.Makes e call ∧ (t.attempt call).1 = .wait w.2) := by
  cases e with
  | connect bound remote refused now =>
    cases refused with
    | some cause => exact .inl h
    | none => exact (of_enter_held h).imp_right fun hw => ⟨hw.1,_,_,.connect bound remote now,hw.2⟩
  | send number data =>
    simp only [Sender.react] at h
    split at h
    · exact .inl h
    · rename_i d x he
      split at h
      · exact .inl h
      · exact (of_enter_held h).imp_right fun hw => ⟨hw.1,_,_,.send data he,hw.2⟩
  | disconnect number =>
    simp only [Sender.react] at h
    split at h
    · exact .inl h
    · rename_i d x he
      split at h
      · exact .inl h
      · exact (of_enter_held h).imp_right fun hw => ⟨hw.1,_,_,.disconnect he,hw.2⟩
  | close =>
    have hs : (s.react .close).1.held = s.held := shut_held s
    exact .inl (hs ▸ h)
  | datagram d source raw now =>
    have hs : (s.react (.datagram d source raw now)).1.held = s.held := onDatagram_held ..
    exact .inl (hs ▸ h)
  | retry d =>
    simp only [Sender.react,onRetry] at h
    split at h
    · exact .inl h
    · exact .inl h
  | wake d now =>
    have hs : (s.react (.wake d now)).1.held = s.held := onWake_held ..
    exact .inl (hs ▸ h)
  | tick d =>
    have hs : (s.react (.tick d)).1.held = s.held := onTick_held ..
    exact .inl (hs ▸ h)

/-- A call that waits after an event did so before, or was made by it: for a new connection, or
about an open one that was accepted. -/
theorem of_react_held {e : Event} {w : CallId × Call} (h : w ∈ (s.react e).1.held) :
    w ∈ s.held ∨ (w.1 = s.calls ∧ (w.2 = .connect s.conns.length ∨
      ∃ number x, s.established number = some (w.2.conn,x))) := by
  refine (made_of_react h).imp_right ?_
  rintro ⟨hk,t,call,hmade,hwait⟩
  refine ⟨hk,?_⟩
  rw [(attempt_wait hwait).1]
  cases hmade with
  | connect _ _ _ =>
    left
    rcases attempt_wait_cases hwait with he | ⟨_,_,_,_,_,hn,_⟩
    · exact he
    · cases hn
  | send _ he => exact .inr ⟨_,_,he⟩
  | disconnect he => exact .inr ⟨_,_,he⟩

end Sender
end ReliableTransport
