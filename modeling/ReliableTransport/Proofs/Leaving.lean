import ReliableTransport.Proofs.Patience

/-! How often a sender takes leave of a connection. A call to disconnect looks only once, before it
waits, whether a close was already asked for; a woken one asks no more than whether everything is
acknowledged. So the first farewell on a connection may be followed by one more for each call that
was waiting to say it too, and by none of any other call. Events with all that follows from them are
plays of moves (`run_eq_play`). -/
namespace ReliableTransport
namespace Sender

open Connection (leaveFrame)

abbrev Move := PartyMove Event

def make (s : Sender) : Move → Sender × List Output
  | .event e => s.react e
  | .retry k => s.poll k

def play : Sender → List Move → Sender × List Output := chain make

variable {s : Sender} {c : ConnRef}

theorem play_cons (s : Sender) (m : Move) (ms : List Move) :
    s.play (m :: ms) = (((s.make m).1.play ms).1,(s.make m).2 ++ ((s.make m).1.play ms).2) := rfl

def rounds : Nat → Sender → List Move
  | 0, _ => []
  | fuel+1, s =>
    if (Waiting.ready s.waiting).isEmpty then []
    else
      (Waiting.ready s.waiting).map .retry ++ rounds fuel (chain poll s (Waiting.ready s.waiting)).1

/-- Events and all that follows from them as moves in a row. -/
def unroll : Sender → List Event → List Move
  | _, [] => []
  | s, e :: es =>
    .event e :: (rounds ((s.react e).1.waiting.length + 1) (s.react e).1 ++ unroll (s.step e).1 es)

theorem play_append (s : Sender) (ms ns : List Move) :
    s.play (ms ++ ns) =
      (((s.play ms).1.play ns).1,(s.play ms).2 ++ ((s.play ms).1.play ns).2) :=
  chain_append make s ms ns

theorem play_retries (s : Sender) (ks : List CallId) : s.play (ks.map .retry) = chain poll s ks :=
  chain_map make .retry s ks

theorem settleRounds_eq_play (fuel : Nat) (s : Sender) :
    settleRounds fuel s = s.play (rounds fuel s) := by
  induction fuel generalizing s with
  | zero => rfl
  | succ fuel ih =>
    rw [settleRounds,rounds]
    split
    · rfl
    · simp only [ih,play_append,play_retries]

theorem step_eq_play (s : Sender) (e : Event) : s.step e =
    s.play (.event e :: rounds ((s.react e).1.waiting.length + 1) (s.react e).1) := by
  rw [step,settle,settleRounds_eq_play]
  rfl

theorem run_eq_play (s : Sender) (es : List Event) : s.run es = s.play (s.unroll es) := by
  induction es generalizing s with
  | nil => rfl
  | cons e es ih =>
    have hrest : (s.step e).1.run es = (s.step e).1.play ((s.step e).1.unroll es) := ih _
    rw [unroll,← List.cons_append,play_append,← step_eq_play,← hrest]
    rfl

theorem Sound.make (h : s.Sound) (m : Move) : (s.make m).1.Sound := by
  cases m with
  | event e => exact h.react e
  | retry k => exact h.poll k

theorem Sound.play (h : s.Sound) (ms : List Move) : (s.play ms).1.Sound :=
  chain_induct h (fun _ ht m => ht.make m) ms

/-- How often farewell is said on a connection in what comes out of a sender. -/
def farewells (c : ConnRef) (os : List Output) : Nat := (said c os).countP fun
  | .sent frame => frame.kind = .rcls
  | .pushed _ _ => false

@[simp] theorem farewells_append (c : ConnRef) (os ps : List Output) :
    farewells c (os ++ ps) = farewells c os + farewells c ps := by
  rw [farewells,said_append,List.countP_append]
  rfl

theorem farewells_of_said {os ps : List Output} (h : said c os = said c ps) :
    farewells c os = farewells c ps := by
  rw [farewells,h]
  rfl

theorem farewells_send_of_ne {frame : Frame} (h : frame.kind ≠ .rcls) (c d : ConnRef) :
    farewells c [.send d frame] = 0 := by
  rw [farewells,said_cons_send]
  split
  · simp [h]
  · rfl

theorem farewells_map {frames : List Frame} (h : ∀ frame ∈ frames, frame.kind ≠ .rcls)
    (c d : ConnRef) : farewells c (frames.map (.send d)) = 0 := by
  rw [farewells,said_map]
  split
  · simp only [List.countP_map,List.countP_eq_zero]
    intro frame hf
    simp [h frame hf]
  · rfl

def Leaving (s : Sender) (c : ConnRef) : Prop := ∃ x, s.conns[c]? = some x ∧ x.closing = true

theorem attempt_leave (h : s.Quiet c) : s.attempt (.disconnect c) =
    (.answer .disconnected,[.send c leaveFrame],(s.modify c .requestClose).wakeCalls c) := by
  obtain ⟨x,hx,hc,hd⟩ := h
  rw [attempt_disconnect hx,hc,hd]
  rfl

theorem enter_leave (h : s.Quiet c) : s.enter (.disconnect c) =
    ({ (s.modify c .requestClose).wakeCalls c with calls := s.calls + 1 },
      [.send c leaveFrame,.finish s.calls .disconnected]) := by
  simp only [enter,attempt_leave h]
  rfl

theorem poll_leave {k : CallId} (h : s.Quiet c)
    (hr : Waiting.ready? s.waiting k = some (.disconnect c)) : s.poll k =
      ({ (s.modify c .requestClose).wakeCalls c with
          waiting := ((s.modify c .requestClose).wakeCalls c).waiting.filter fun w => w.id ≠ k },
        [.send c leaveFrame,.finish k .disconnected]) := by
  simp only [poll,hr,attempt_leave h]
  rfl

theorem farewells_leave (c : ConnRef) (k : CallId) :
    farewells c [.send c leaveFrame,.finish k .disconnected] = 1 := by
  rw [farewells,said_cons_send,if_pos rfl]
  rfl

/-- Only a call to leave the connection says farewell, and only when everything is acknowledged. -/
theorem attempt_farewells (s : Sender) (call : Call) (c : ConnRef) :
    farewells c (s.attempt call).2.1 = 0 ∨ (call = .disconnect c ∧ s.Quiet c) := by
  rcases attempt_sent s call with he | ⟨d,hcall,hq,he⟩
  · left
    rw [he]
    rfl
  · by_cases hd : d = c
    · subst hd
      exact .inr ⟨hcall,hq⟩
    · left
      rw [he,farewells,said_cons_send,if_neg hd]
      rfl

theorem onWake_farewells (s : Sender) (d : ConnRef) (now : Nat) (c : ConnRef) :
    farewells c (s.onWake d now).2 = 0 := by
  unfold onWake
  split
  · rfl
  · split
    · rfl
    · split
      · rfl
      · refine farewells_map (fun frame hf => ?_) c d
        rcases List.mem_append.mp hf with hf | hf
        · obtain ⟨piece,_,rfl⟩ := List.mem_map.mp hf
          simp [dataFrame]
        · rw [List.mem_singleton.mp hf]
          simp [signal]

theorem onDatagram_farewells (s : Sender) (d : ConnRef) (source : Address) (raw : Bytes)
    (now : Nat) (c : ConnRef) : farewells c (s.onDatagram d source raw now).2 = 0 := by
  unfold onDatagram
  split
  · rfl
  · split
    · rfl
    · split
      · rfl
      · split
        · unfold onAccept
          split
          · rfl
          · exact onWake_farewells _ d now c
        all_goals rfl

/-- An event says farewell only by a call that need not wait, and then no close was asked for. -/
theorem react_farewells (s : Sender) (e : Event) (c : ConnRef) :
    farewells c (s.react e).2 = 0 ∨ (¬ s.Leaving c ∧ ∃ t : Sender, t.Quiet c ∧
      s.react e = t.enter (.disconnect c)) := by
  cases e with
  | connect bound remote refused now =>
    cases refused with
    | some cause => exact .inl rfl
    | none =>
      left
      simp only [react,onConnect_eq]
      exact farewells_send_of_ne (by decide) c _
  | send number data =>
    left
    simp only [react]
    split
    · rfl
    · split
      · rfl
      · rw [farewells_of_said (enter_said s _ c)]
        exact (attempt_farewells s _ c).resolve_right fun h => by cases h.1
  | disconnect number =>
    simp only [react]
    split
    · exact .inl rfl
    · rename_i d x he
      split
      · exact .inl rfl
      · rename_i hcl
        have hx := (lookup_eq_some_iff.mp (established_eq_some_iff.mp he).1).2
        rw [farewells_of_said (enter_said _ _ c)]
        refine (attempt_farewells _ _ c).imp_right ?_
        rintro ⟨hd,hq⟩
        obtain rfl : d = c := by simpa using hd
        refine ⟨?_,_,hq,rfl⟩
        rintro ⟨y,hy,hclosing⟩
        rw [hx] at hy
        rw [← Option.some.inj hy] at hclosing
        exact hcl hclosing
  | close => exact .inl rfl
  | datagram d source raw now => exact .inl (onDatagram_farewells s d source raw now c)
  | retry d =>
    left
    simp only [react,onRetry]
    split
    · exact farewells_send_of_ne (by decide) c d
    · rfl
  | wake d now => exact .inl (onWake_farewells s d now c)
  | tick d => exact .inl rfl

/-- Everything on the connection is acknowledged, a close was asked for, and no call about it sleeps
for want of what is there. -/
structure Left (s : Sender) (c : ConnRef) : Prop where
  sound : s.Sound
  patient : s.Patient c
  quiet : s.Quiet c
  leaving : s.Leaving c

theorem Quiet.left (h : s.Quiet c) {t : Sender} (ht : t.Sound)
    (hconns : t.conns = (s.modify c .requestClose).conns)
    (hw : ∀ w ∈ t.waiting, w ∈ ((s.modify c .requestClose).wakeCalls c).waiting) : t.Left c := by
  obtain ⟨x,hx,hc,hd⟩ := h
  have hat : t.conns[c]? = some x.requestClose := by
    rw [hconns]
    exact conns_modify_self hx _
  exact {
    sound := ht
    patient := (patient_wakeCalls (s.modify c .requestClose) c).of_mem (fun w hm _ _ => hw w hm)
      fun y hy => ⟨y,by rw [hconns]; exact hy,.refl _,fun h => h⟩
    quiet := ⟨_,hat,hc,hd⟩
    leaving := ⟨_,hat,rfl⟩ }

theorem poll_left {k : CallId} (hs : s.Sound) (h : s.Quiet c)
    (hr : Waiting.ready? s.waiting k = some (.disconnect c)) :
    farewells c (s.poll k).2 = 1 ∧ (s.poll k).1.Left c := by
  have hsound := hs.poll k
  rw [poll_leave h hr] at hsound ⊢
  exact ⟨farewells_leave c k,h.left hsound rfl fun w hw => (List.mem_filter.mp hw).1⟩

/-- A move says farewell at most once on a connection, and then the connection is left. -/
theorem make_farewells (hs : s.Sound) (m : Move) (c : ConnRef) :
    farewells c (s.make m).2 = 0 ∨ (farewells c (s.make m).2 = 1 ∧ (s.make m).1.Left c) := by
  cases m with
  | event e =>
    refine (react_farewells s e c).imp_right ?_
    rintro ⟨_,t,hq,ht⟩
    have hsound := hs.react e
    simp only [make,ht,enter_leave hq] at hsound ⊢
    exact ⟨farewells_leave c _,hq.left hsound rfl fun w hw => hw⟩
  | retry k =>
    cases hr : Waiting.ready? s.waiting k with
    | none =>
      left
      rw [make,poll_none hr]
      rfl
    | some call =>
      simp only [make,farewells_of_said (poll_said hr c)]
      refine (attempt_farewells s call c).imp_right ?_
      rintro ⟨rfl,hq⟩
      rw [← farewells_of_said (poll_said hr c)]
      exact poll_left hs hq hr

def leavers (s : Sender) (c : ConnRef) : List CallId :=
  (s.held.filter fun e => e.2 = .disconnect c).map (·.1)

theorem mem_leavers {k : CallId} : k ∈ s.leavers c ↔ (k,.disconnect c) ∈ s.held := by
  simp [leavers]

theorem leavers_of_held {t : Sender} (h : t.held = s.held) : t.leavers c = s.leavers c := by
  rw [leavers,h]
  rfl

theorem nodup_leavers (hs : s.Sound) (c : ConnRef) : (s.leavers c).Nodup :=
  hs.nodup.sublist (List.filter_sublist.map _)

theorem attempt_wait_disconnect {call later : Call} (h : (s.attempt call).1 = .wait later) :
    later = .disconnect c ↔ call = .disconnect c := by
  rcases attempt_wait_cases h with rfl | ⟨d,rest,last,left,next,rfl,rfl,_⟩
  · rfl
  · simp

theorem enter_leavers {call : Call} (h : call ≠ .disconnect c) :
    (s.enter call).1.leavers c = s.leavers c := by
  rw [leavers,enter_held,List.filter_append,List.map_append]
  cases ho : (s.attempt call).1 with
  | answer result => simp [leavers]
  | wait later =>
    have hlater : later ≠ .disconnect c := fun he => h ((attempt_wait_disconnect ho).mp he)
    simp [leavers,hlater]

/-- A new call to leave a connection that is to be closed is answered at once, so that nobody joins
those who wait to leave it. -/
theorem react_leavers (h : s.Leaving c) (e : Event) : (s.react e).1.leavers c = s.leavers c := by
  cases e with
  | connect bound remote refused now =>
    cases refused with
    | some cause => rfl
    | none =>
      simp only [react,onConnect_eq]
      simp [leavers,held]
  | send number data =>
    simp only [react]
    split
    · rfl
    · split
      · rfl
      · exact enter_leavers (by simp)
  | disconnect number =>
    simp only [react]
    split
    · rfl
    · rename_i d x he
      split
      · rfl
      · rename_i hcl
        have hx := (lookup_eq_some_iff.mp (established_eq_some_iff.mp he).1).2
        refine (enter_leavers fun hd => hcl ?_).trans (leavers_of_held (held_modify s d _))
        obtain rfl : d = c := by simpa using hd
        obtain ⟨y,hy,hclosing⟩ := h
        rw [hx] at hy
        rw [Option.some.inj hy,hclosing]
  | close => exact leavers_of_held (shut_held s)
  | datagram d source raw now => exact leavers_of_held (onDatagram_held s d source raw now)
  | retry d =>
    simp only [react,onRetry]
    split
    · rfl
    · rfl
  | wake d now => exact leavers_of_held (onWake_held s d now)
  | tick d => exact leavers_of_held (onTick_held s d)

theorem poll_leavers_answer {k : CallId} {call : Call} {result : Result}
    (hr : Waiting.ready? s.waiting k = some call) (ho : (s.attempt call).1 = .answer result) :
    (s.poll k).1.leavers c = (s.leavers c).filter (· ≠ k) := by
  rw [leavers,poll_held hr,ho]
  simp only [leavers,List.filter_map,List.filter_filter,Function.comp_def]
  congr 2
  funext e
  rw [Bool.and_comm]

theorem poll_leavers_wait (hs : s.Sound) {k : CallId} {call later : Call}
    (hr : Waiting.ready? s.waiting k = some call) (ho : (s.attempt call).1 = .wait later) :
    (s.poll k).1.leavers c = s.leavers c := by
  obtain ⟨before,after,hsplit,hbefore,hafter⟩ := held_split hs (mem_held_of_ready hr)
  rw [leavers,poll_waits hr ho hsplit hbefore hafter,leavers,hsplit]
  simp only [List.filter_append,List.filter_cons,attempt_wait_disconnect ho]
  split
  · simp
  · rfl

theorem Leaving.modify (h : s.Leaving c) (d : ConnRef) {f : Connection → Connection}
    (hf : ∀ x, x.closing = true → (f x).closing = true) : (s.modify d f).Leaving c := by
  obtain ⟨x,hx,hcl⟩ := h
  by_cases hd : d = c
  · subst hd
    exact ⟨f x,conns_modify_self hx f,hf x hcl⟩
  · exact ⟨x,by rw [Sender.modify,List.getElem?_modify_ne _ _ hd,hx],hcl⟩

theorem Leaving.attempt (h : s.Leaving c) (call : Call) : (s.attempt call).2.2.Leaving c := by
  rcases attempt_cases s call with he | ⟨d,x,pieces,hx,he⟩ | ⟨d,he⟩
  · rw [he]
    exact h
  · rw [he]
    exact h.modify d fun _ hcl => hcl
  · rw [he]
    exact h.modify d fun _ _ => rfl

theorem Leaving.make (h : s.Leaving c) (m : Move) : (s.make m).1.Leaving c := by
  cases m with
  | event e =>
    obtain ⟨x,hx,hcl⟩ := h
    obtain ⟨y,hy,ht⟩ := react_plays s e c x hx
    exact ⟨y,hy,ht.stays.2.2.2 hcl⟩
  | retry k =>
    cases hr : Waiting.ready? s.waiting k with
    | none =>
      rw [Sender.make,poll_none hr]
      exact h
    | some call =>
      obtain ⟨y,hy,hcl⟩ := h.attempt call
      exact ⟨y,by rw [Sender.make,poll_conns hr]; exact hy,hcl⟩

/-- Whoever says farewell on a connection that is to be closed was waiting to do so, and waits no
more. -/
theorem Leaving.farewells_make (h : s.Leaving c) (hs : s.Sound) (m : Move) :
    farewells c (s.make m).2 + ((s.make m).1.leavers c).length ≤ (s.leavers c).length := by
  cases m with
  | event e =>
    have hnone := (react_farewells s e c).resolve_right fun hl => hl.1 h
    simp only [Sender.make,hnone,react_leavers h e,Nat.zero_add]
    exact Nat.le_refl _
  | retry k =>
    cases hr : Waiting.ready? s.waiting k with
    | none =>
      rw [Sender.make,poll_none hr]
      exact Nat.le_of_eq (Nat.zero_add _)
    | some call =>
      simp only [Sender.make,farewells_of_said (poll_said hr c)]
      rcases attempt_farewells s call c with hnone | ⟨rfl,hq⟩
      · rw [hnone,Nat.zero_add]
        cases ho : (s.attempt call).1 with
        | answer result =>
          rw [poll_leavers_answer hr ho]
          exact List.length_filter_le _ _
        | wait later => exact Nat.le_of_eq (congrArg List.length (poll_leavers_wait hs hr ho))
      · have hk : k ∈ s.leavers c := mem_leavers.mpr (mem_held_of_ready hr)
        have hone := (poll_left hs hq hr).1
        rw [farewells_of_said (poll_said hr c)] at hone
        rw [hone,poll_leavers_answer hr (by rw [attempt_leave hq]),Nat.add_comm]
        exact List.length_filter_lt_length_iff_exists.mpr ⟨k,hk,by simp⟩

theorem Leaving.farewells_play (h : s.Leaving c) (hs : s.Sound) (ms : List Move) :
    farewells c (s.play ms).2 ≤ (s.leavers c).length := by
  induction ms generalizing s with
  | nil => exact Nat.zero_le _
  | cons m ms ih =>
    have hnow := h.farewells_make hs m
    have hlater := ih (h.make m) (hs.make m)
    rw [play_cons,farewells_append]
    omega

/-- When a connection is left, the next one who waits to leave it says farewell again. -/
theorem Left.retry (h : s.Left c) {k : CallId} {ks : List CallId} (hk : s.leavers c = k :: ks) :
    farewells c (s.poll k).2 = 1 ∧ (s.poll k).1.Left c ∧ (s.poll k).1.leavers c = ks := by
  have hheld : (k,.disconnect c) ∈ s.held := mem_leavers.mp (by rw [hk]; exact List.mem_cons_self)
  have hr : Waiting.ready? s.waiting k = some (.disconnect c) := by
    refine h.patient.ready h.sound hheld rfl ?_
    rintro ⟨x,hx,_,hd⟩
    obtain ⟨y,hy,_,hquiet⟩ := h.quiet
    rw [hx] at hy
    rw [← Option.some.inj hy,hd] at hquiet
    cases hquiet
  obtain ⟨hone,hleft⟩ := poll_left h.sound h.quiet hr
  refine ⟨hone,hleft,?_⟩
  have hnd := nodup_leavers h.sound c
  rw [hk,List.nodup_cons] at hnd
  rw [poll_leavers_answer hr (by rw [attempt_leave h.quiet]),hk,List.filter_cons_of_neg (by simp)]
  exact List.filter_eq_self.mpr fun j hj => by
    rw [decide_eq_true_eq]
    rintro rfl
    exact hnd.1 hj

theorem Left.retry_all (h : s.Left c) :
    farewells c (s.play ((s.leavers c).map .retry)).2 = (s.leavers c).length := by
  generalize hks : s.leavers c = ks
  induction ks generalizing s with
  | nil => rfl
  | cons k ks ih =>
    obtain ⟨hone,hleft,hrest⟩ := h.retry hks
    have hlater := ih hleft hrest
    rw [List.map_cons,play_cons,farewells_append,List.length_cons]
    simp only [make]
    omega

/-- A connection takes leave in the move `m` from `s`, and `more` moves follow. -/
structure TakesLeave (s : Sender) (c : ConnRef) (m : Move) (more : List Move) : Prop where
  once : farewells c (s.make m).2 = 1
  /-- Only those who waited to leave then can say farewell again, and each of them once. -/
  bound : farewells c ((s.make m).1.play more).2 ≤ ((s.make m).1.leavers c).length
  attained : farewells c ((s.make m).1.play (((s.make m).1.leavers c).map .retry)).2 =
    ((s.make m).1.leavers c).length

theorem farewells_play (hs : s.Sound) (ms : List Move) (c : ConnRef) :
    farewells c (s.play ms).2 = 0 ∨ ∃ before m after, ms = before ++ m :: after ∧
      farewells c (s.play before).2 = 0 ∧ (s.play before).1.TakesLeave c m after := by
  induction ms generalizing s with
  | nil => exact .inl rfl
  | cons m ms ih =>
    rcases make_farewells hs m c with hnone | ⟨hone,hleft⟩
    · rcases ih (hs.make m) with hlater | ⟨before,n,after,rfl,hbefore,hleave⟩
      · left
        rw [play_cons,farewells_append,hnone,hlater]
      · refine .inr ⟨m :: before,n,after,rfl,?_,hleave⟩
        rw [play_cons,farewells_append,hnone,hbefore]
    · exact .inr ⟨[],m,ms,rfl,rfl,hone,hleft.leaving.farewells_play hleft.sound ms,
        hleft.retry_all⟩

/-- In its whole life a connection says farewell once, and once more at most for every other call
that waits to leave it when it does. -/
theorem farewells_along_play (settings : Settings) (ms : List Move) (c : ConnRef) :
    farewells c ((start settings).play ms).2 = 0 ∨ ∃ before m after, ms = before ++ m :: after ∧
      farewells c ((start settings).play before).2 = 0 ∧
      ((start settings).play before).1.TakesLeave c m after :=
  farewells_play (sound_start settings) ms c

/-- A byte is under way to `remote` when two calls ask to leave; then it is acknowledged. -/
def leaveTogether (bound remote : Address) : List Event :=
  [.connect bound remote none 0,.datagram 0 remote (Frame.encode ⟨.acon,0,5000,[]⟩) 0,
    .send 1 [97],.disconnect 1,.disconnect 1,.wake 0 1,
    .datagram 0 remote (Frame.encode ⟨.adat,1,5000,[]⟩) 2]

/-- Farewell is not always said just once. -/
theorem farewells_leaveTogether :
    ¬ ∀ settings es c, farewells c ((start settings).run es).2 ≤ 1 := by
  intro h
  have htwo : farewells 0 ((start ⟨.ofMillis 1500,.ofMillis 500,.ofMillis 100⟩).run
      (leaveTogether ⟨.localhost,0,4001⟩ ⟨.localhost,0,4000⟩)).2 = 2 := by decide +kernel
  have hone := h ⟨.ofMillis 1500,.ofMillis 500,.ofMillis 100⟩
    (leaveTogether ⟨.localhost,0,4001⟩ ⟨.localhost,0,4000⟩) 0
  rw [htwo] at hone
  exact absurd hone (by decide)

end Sender
end ReliableTransport
