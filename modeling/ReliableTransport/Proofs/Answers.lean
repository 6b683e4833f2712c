import ReliableTransport.Proofs.Newest

/-! What readers are told. A read is answered from the newest record of its address (`read_answers`),
a read that waits from the record it was made for (`poll_ofRead`), and so the end of the data is
announced only for a record that was torn down and read to its end. Joined to where the bytes of a
record go, this is all that a reader can count on. -/
namespace ReliableTransport
namespace Receiver

open Registry (Current)

variable {r : Receiver} {m : Move} {a : Address} {p : PeerId}

inductive Answers (r : Receiver) (a : Address) (room : Nat) : Result → Prop
  | shut (h : r.closing = true) : Answers r a room (.failed .closed)
  | unknown (h : r.registry.readable a = .unknown) : Answers r a room (.failed (.notConnected a))
  | marked (h : r.registry.readable a = .closed) : Answers r a room (.bytes [])
  | nothing (h : room = 0) : Answers r a room (.bytes [])
  | bytes {p : PeerId} {x : Peer} (h : r.registry.readable a = .live p)
      (hx : r.registry.peers[p]? = some x) (hr : 0 < room) (hu : x.inbox.unread ≠ []) :
      Answers r a room (.bytes (x.inbox.unread.take room))
  | ended {p : PeerId} {x : Peer} (h : r.registry.readable a = .live p)
      (hx : r.registry.peers[p]? = some x) (hcl : x.closed = true) (hu : x.inbox.unread = []) :
      Answers r a room (.bytes [])

theorem mem_finished {k j : CallId} {result : Result} {call : Call}
    (h : .finish k result ∈ finished j (r.attempt call).2.1 (r.attempt call).1) :
    k = j ∧ (r.attempt call).1 = .answer result := by
  have hsent : Output.finish k result ∉ (r.attempt call).2.1 := by
    cases call with
    | accept =>
      simp only [attempt]
      split
      · simp
      · split
        · simp
        · simp
    | read p room =>
      simp only [attempt]
      split
      · simp
      · split
        · simp
        · split
          · simp
          · split
            · simp
            · simp
  unfold finished at h
  split at h
  · rename_i answer ho
    rcases List.mem_append.mp h with h | h
    · exact absurd h hsent
    · obtain ⟨rfl,rfl⟩ := Output.finish.inj (List.mem_singleton.mp h)
      exact ⟨rfl,ho⟩
  · exact absurd h hsent

theorem attempt_read_answer {room : Nat} {x : Peer} {result : Result}
    (hx : r.registry.peers[p]? = some x) (hr : 0 < room)
    (h : (r.attempt (.read p room)).1 = .answer result) :
    (x.inbox.unread ≠ [] ∧ result = .bytes (x.inbox.unread.take room)) ∨
      (x.inbox.unread = [] ∧ (x.closed = true ∨ r.closing = true) ∧ result = .bytes []) := by
  rw [attempt_read hx hr] at h
  split at h
  · rename_i hu
    cases h
    exact .inl ⟨hu,rfl⟩
  · rename_i hu
    have hu := Decidable.not_not.mp hu
    split at h
    · rename_i hcl
      cases h
      exact .inr ⟨hu,.inl hcl,rfl⟩
    · split at h
      · rename_i hcl
        cases h
        exact .inr ⟨hu,.inr hcl,rfl⟩
      · cases h

theorem read_answers (hsound : r.Sound) {room : Nat} {k : CallId} {result : Result}
    (h : .finish k result ∈ (r.react (.read a room)).2) :
    k = r.calls ∧ r.Answers a room result := by
  have hone : ∀ {answer : Result}, .finish k result ∈ (r.answer [] answer).2 →
      k = r.calls ∧ result = answer := by
    intro answer hm
    obtain ⟨rfl,rfl⟩ := Output.finish.inj (List.mem_singleton.mp hm)
    exact ⟨rfl,rfl⟩
  simp only [react] at h
  split at h
  · rename_i hc
    obtain ⟨hk,rfl⟩ := hone h
    exact ⟨hk,.shut hc⟩
  · rename_i hopen
    split at h
    · rename_i hl
      obtain ⟨hk,rfl⟩ := hone h
      exact ⟨hk,.marked hl⟩
    · rename_i hl
      obtain ⟨hk,rfl⟩ := hone h
      exact ⟨hk,.unknown hl⟩
    · rename_i p hl
      split at h
      · rename_i hz
        obtain ⟨hk,rfl⟩ := hone h
        exact ⟨hk,.nothing hz⟩
      · rename_i hz
        rw [enter_finished] at h
        obtain ⟨hk,ho⟩ := mem_finished h
        obtain ⟨x,hx,_⟩ : ∃ x, r.registry.peers[p]? = some x ∧ x.addr = a := by
          rcases Registry.found_of_readable hl with hp | hc | hr
          · obtain ⟨x,hx,hadd,_⟩ := hsound.registry.pending a p hp
            exact ⟨x,hx,hadd⟩
          · obtain ⟨x,hx,hadd,_⟩ := hsound.registry.connected a p hc
            exact ⟨x,hx,hadd⟩
          · obtain ⟨x,hx,hadd,_⟩ := hsound.registry.unread a p hr
            exact ⟨x,hx,hadd⟩
        rcases attempt_read_answer hx (Nat.pos_of_ne_zero hz) ho with
          ⟨hu,rfl⟩ | ⟨hu,hcl | hcl,rfl⟩
        · exact ⟨hk,.bytes hl hx (Nat.pos_of_ne_zero hz) hu⟩
        · exact ⟨hk,.ended hl hx hcl hu⟩
        · exact absurd hcl hopen

theorem read_bytes (hopen : r.closing = false) {room : Nat} (hr : 0 < room)
    (hl : r.registry.readable a = .live p) (hu : r.registry.unreadOf p ≠ []) :
    (r.react (.read a room)).2 =
      [.finish r.calls (.bytes ((r.registry.unreadOf p).take room))] := by
  obtain ⟨x,hx⟩ : ∃ x, r.registry.peers[p]? = some x := by
    cases hx : r.registry.peers[p]? with
    | none =>
      rw [Registry.unreadOf,hx] at hu
      exact absurd rfl hu
    | some x => exact ⟨x,rfl⟩
  have hz : ¬ room = 0 := by omega
  rw [Registry.unreadOf_eq hx] at hu ⊢
  simp only [react,hopen,Bool.false_eq_true,if_false,hl,if_neg hz,enter_finished,
    attempt_read hx hr,if_pos hu]
  rfl

def Result.OfRead : Result → Prop
  | .bytes _ => True
  | .failed (.notConnected _) => True
  | _ => False

theorem attempt_accept_answer {result : Result} (h : (r.attempt .accept).1 = .answer result) :
    ¬ result.OfRead := by
  simp only [attempt] at h
  split at h
  · cases h
    exact id
  · split at h
    · cases h
    · cases h
      exact id

theorem onDatagram_finish (source : Address) (raw : Bytes) {k : CallId} {result : Result} :
    .finish k result ∉ (r.onDatagram source raw).2 := by
  unfold onDatagram
  split
  · simp
  · split
    · simp
    · split
      · unfold onConnect
        split
        · split
          · simp
          · simp
        · simp
        all_goals
          split
          · simp
          · simp
      · unfold onData
        split
        · simp
        · split
          · simp
          · split
            · simp
            · simp
      · unfold onClose
        split
        · simp
        · split
          · simp
          · simp
      · simp

theorem react_ofRead {e : Event} {k : CallId} {result : Result}
    (h : .finish k result ∈ (r.react e).2) (hr : result.OfRead) : ∃ a room, e = .read a room := by
  cases e with
  | read a room => exact ⟨a,room,rfl⟩
  | datagram source raw => exact absurd h (onDatagram_finish source raw)
  | acceptOne =>
    simp only [react,enter_finished] at h
    exact absurd hr (attempt_accept_answer (mem_finished h).2)
  | acceptAll =>
    simp only [react] at h
    split at h
    · obtain ⟨rfl,rfl⟩ := Output.finish.inj (List.mem_singleton.mp h)
      cases hr
    · simp only [answer,List.mem_append,List.mem_map,reduceCtorEq,and_false,exists_false,
        List.mem_singleton,Output.finish.injEq,false_or] at h
      rw [h.2] at hr
      cases hr
  | tick p => cases h
  | close =>
    obtain ⟨rfl,rfl⟩ := Output.finish.inj (List.mem_singleton.mp h)
    cases hr

def calling (r : Receiver) : List (CallId × Call) := r.waiting.map fun w => (w.id,w.call)

theorem calling_wakeReads (r : Receiver) (p : PeerId) : (r.wakeReads p).calling = r.calling := by
  simp [calling,wakeReads,Waiting.wake]

theorem calling_wakeAccepts (r : Receiver) : r.wakeAccepts.calling = r.calling := by
  simp [calling,wakeAccepts,Waiting.wake]

theorem calling_attempt (r : Receiver) (call : Call) : (r.attempt call).2.2.calling = r.calling := by
  rw [calling,attempt_waiting]
  rfl

theorem calling_enter (r : Receiver) (call : Call) :
    (r.enter call).1.calling = r.calling ∨
      (r.enter call).1.calling = r.calling ++ [(r.calls,call)] := by
  simp only [enter]
  split
  · exact .inl (calling_attempt r call)
  · rename_i later ho
    refine .inr ?_
    rw [ho,attempt_wait ho]
    simp only [Waiting.enter,calling,List.map_append,attempt_waiting]
    rfl

theorem calling_acceptMany (fuel : Nat) (r : Receiver) :
    (acceptMany fuel r).2.calling = r.calling := by
  induction fuel generalizing r with
  | zero => rfl
  | succ fuel ih =>
    unfold acceptMany
    cases h : r.acceptNext with
    | none => rfl
    | some e =>
      obtain ⟨a,frame,t⟩ := e
      obtain ⟨_,_,_,_,_,_,_,rfl⟩ := acceptNext_eq_some h
      exact ih _

theorem calling_shut (r : Receiver) : r.shut.calling = r.calling := by
  have hfold : ∀ (ps : List PeerId) (t : Receiver),
      (ps.foldl (fun r p => (r.modify p .teardown).wakeReads p) t).calling = t.calling := by
    intro ps
    induction ps with
    | nil => exact fun _ => rfl
    | cons p ps ih => exact fun t => (ih _).trans (calling_wakeReads (t.modify p .teardown) p)
  unfold shut
  split
  · rfl
  · exact (hfold _ _).trans (calling_wakeAccepts _)

theorem calling_onDatagram (source : Address) (raw : Bytes) :
    (r.onDatagram source raw).1.calling = r.calling := by
  unfold onDatagram
  split
  · rfl
  · split
    · rfl
    · split
      · unfold onConnect
        split
        · split
          · rfl
          · rfl
        · rfl
        all_goals
          split
          · exact calling_wakeAccepts _
          · rfl
      · unfold onData
        split
        · rfl
        · split
          · rfl
          · split
            · rfl
            · simp only
              split
              · exact calling_wakeReads _ _
              · rfl
      · unfold onClose
        split
        · rfl
        · split
          · rfl
          · rfl
      · rfl

theorem calling_onTick (r : Receiver) (p : PeerId) : (r.onTick p).calling = r.calling := by
  unfold onTick
  split
  · rfl
  · split
    · simp only
      split
      · exact calling_wakeReads _ _
      · rfl
    · rfl

/-- A read that waits was there before, or is made now by a reader of the record it is about. -/
theorem calling_react {e : Event} {k : CallId} {room : Nat}
    (h : (k,.read p room) ∈ (r.react e).1.calling) :
    (k,.read p room) ∈ r.calling ∨
      k = r.calls ∧ 0 < room ∧ ∃ a, e = .read a room ∧ r.registry.readable a = .live p := by
  cases e with
  | datagram source raw => exact .inl (calling_onDatagram source raw ▸ h)
  | acceptOne =>
    rcases calling_enter r .accept with he | he
    · exact .inl (he ▸ h)
    · have h : (k,Call.read p room) ∈ (r.enter .accept).1.calling := h
      rw [he,List.mem_append,List.mem_singleton] at h
      rcases h with h | h
      · exact .inl h
      · cases h
  | acceptAll =>
    simp only [react] at h
    split at h
    · exact .inl h
    · exact .inl (calling_acceptMany _ r ▸ h)
  | read a size =>
    simp only [react] at h
    split at h
    · exact .inl h
    · split at h
      · exact .inl h
      · exact .inl h
      · rename_i q hl
        split at h
        · exact .inl h
        · rename_i hz
          rcases calling_enter r (.read q size) with he | he
          · exact .inl (he ▸ h)
          · rw [he,List.mem_append,List.mem_singleton] at h
            rcases h with h | h
            · exact .inl h
            · cases h
              exact .inr ⟨rfl,Nat.pos_of_ne_zero hz,a,rfl,hl⟩
  | tick q => exact .inl (calling_onTick r q ▸ h)
  | close => exact .inl (calling_shut r ▸ h)

theorem mem_calling_of_ready {j : CallId} {call : Call}
    (h : Waiting.ready? r.waiting j = some call) : (j,call) ∈ r.calling := by
  obtain ⟨w,hw,rfl,rfl⟩ := Waiting.mem_of_ready? h
  exact List.mem_map.mpr ⟨w,hw,rfl⟩

theorem calling_poll {j : CallId} {e : CallId × Call} (h : e ∈ (r.poll j).1.calling) :
    e ∈ r.calling := by
  cases hr : Waiting.ready? r.waiting j with
  | none =>
    rw [poll_none hr] at h
    exact h
  | some call =>
    simp only [poll,hr] at h
    split at h
    · rename_i result ho
      rw [ho] at h
      obtain ⟨w,hw,rfl⟩ := List.mem_map.mp h
      rw [attempt_waiting] at hw
      exact List.mem_map.mpr ⟨w,(List.mem_filter.mp hw).1,rfl⟩
    · rename_i later ho
      rw [ho] at h
      obtain ⟨w,hw,rfl⟩ := List.mem_map.mp h
      rw [attempt_waiting] at hw
      obtain ⟨v,hv,rfl⟩ := List.mem_map.mp hw
      by_cases hid : v.id = j
      · rw [if_pos hid,attempt_wait ho]
        exact mem_calling_of_ready hr
      · rw [if_neg hid]
        exact List.mem_map.mpr ⟨v,hv,rfl⟩

/-- A read that waits after moves in a row waited at first, or was made in one of them by a reader
of the record it is about. -/
theorem calling_play {ms : List Move} {k : CallId} {room : Nat}
    (h : (k,.read p room) ∈ (r.play ms).1.calling) :
    (k,.read p room) ∈ r.calling ∨
      ∃ xs ys a, ms = xs ++ .event (.read a room) :: ys ∧ (r.play xs).1.calls = k ∧
        (r.play xs).1.registry.readable a = .live p := by
  induction ms generalizing r with
  | nil => exact .inl h
  | cons m ms ih =>
    rcases ih (r := (r.make m).1) h with h | ⟨xs,ys,a,rfl,hk,hl⟩
    · cases m with
      | event e =>
        rcases calling_react h with h | ⟨hk,_,a,rfl,hl⟩
        · exact .inl h
        · exact .inr ⟨[],ms,a,rfl,hk.symm,hl⟩
      | retry j => exact .inl (calling_poll h)
    · exact .inr ⟨m :: xs,ys,a,rfl,hk,hl⟩

/-- A call that has the answer of a read on another try has waited to read from a record, and is told
what that has for it. -/
theorem poll_ofRead (hsound : r.Sound) {j k : CallId} {result : Result}
    (h : .finish k result ∈ (r.poll j).2) (hr : result.OfRead) :
    ∃ p room x, (k,.read p room) ∈ r.calling ∧ r.registry.peers[p]? = some x ∧ 0 < room ∧
      ((x.inbox.unread ≠ [] ∧ result = .bytes (x.inbox.unread.take room)) ∨
        (x.inbox.unread = [] ∧ (x.closed = true ∨ r.closing = true) ∧ result = .bytes [])) := by
  cases hready : Waiting.ready? r.waiting j with
  | none =>
    rw [poll_none hready] at h
    cases h
  | some call =>
    rw [poll_finished hready] at h
    obtain ⟨rfl,ho⟩ := mem_finished h
    cases call with
    | accept => exact absurd hr (attempt_accept_answer ho)
    | read p room =>
      have hroom := room_of_ready hsound hready rfl
      cases hx : r.registry.peers[p]? with
      | none =>
        simp only [attempt,hx] at ho
        cases ho
        cases hr
      | some x =>
        exact ⟨p,room,x,mem_calling_of_ready hready,hx,hroom,attempt_read_answer hx hroom ho⟩

/-- A receiver after moves from its start. -/
abbrev after (settings : Settings) (ms : List Move) : Receiver := ((start settings).play ms).1

theorem sound_after (settings : Settings) (ms : List Move) : (after settings ms).Sound :=
  (sound_start settings).play ms

theorem tidy_after (settings : Settings) (ms : List Move) : (after settings ms).registry.Tidy :=
  Tidy.play (tidy_start settings) (sound_start settings) ms

theorem after_concat (settings : Settings) (ms : List Move) (m : Move) :
    after settings (ms ++ [m]) = ((after settings ms).make m).1 := by
  rw [after,play,chain_append]
  rfl

/-- The record `p` is what a reader of the address `a` reads from, and its unread bytes are what a
read is answered with. -/
structure Serves (r : Receiver) (a : Address) (p : PeerId) : Prop where
  readable : r.registry.readable a = .live p
  answer : r.closing = false → ∀ room, 0 < room → (r.react (.read a room)).2 =
    [.finish r.calls (.bytes ((r.registry.unreadOf p).take room))]

/-- What a receiver owes its readers after the moves `ms`. -/
structure Custody (settings : Settings) (ms : List Move) : Prop where
  /-- Of the payloads accepted into a record, every byte was handed out once, in order, or is
  unread. -/
  conserved : ∀ p, ((start settings).returned ms p).flatten ++
    (after settings ms).registry.unreadOf p = ((start settings).accepted ms p).flatten
  /-- Unread bytes of a record that is connected now can be read whatever happens next, unless the
  mark of its address is forgotten. -/
  held : ∀ a p, (after settings ms).registry.connected.get? a = some p → ∀ more,
    ((after settings ms).play more).1.registry.unreadOf p ≠ [] →
    ((after settings ms).play more).1.Serves a p ∨
      ∃ xs m ys, more = xs ++ m :: ys ∧ ((after settings ms).play xs).1.Yields a p m
  /-- A read of some bytes that is told the end was made of a record that is torn down by now and
  read to its end. -/
  ended : ∀ m k, .finish k (.bytes []) ∈ ((after settings ms).make m).2 →
    ((after settings ms).make m).1.closing = false →
    ∃ xs ys a room, ms ++ [m] = xs ++ .event (.read a room) :: ys ∧
      (after settings xs).calls = k ∧ (room = 0 ∨ ∃ p x, (after settings xs).registry.Newest a p ∧
        (after settings ms).registry.peers[p]? = some x ∧ x.closed = true ∧ x.inbox.unread = [])
  /-- A reader of an address is told that it is unknown if it is neither connected nor retired. -/
  unknown : ∀ m k a, .finish k (.failed (.notConnected a)) ∈ ((after settings ms).make m).2 →
    ∃ room, m = .event (.read a room) ∧ (after settings ms).registry.connected.get? a = none ∧
      (after settings ms).registry.retired.get? a = none

theorem newest_of_readable (h : r.registry.Current) (hl : r.registry.readable a = .live p) :
    r.registry.Newest a p := h.newest a p (Registry.found_of_readable hl)

theorem take_ne_nil {bs : Bytes} {room : Nat} (hb : bs ≠ []) (hr : 0 < room) :
    bs.take room ≠ [] := by
  rw [Ne,List.take_eq_nil_iff]
  rintro (hz | hn)
  · omega
  · exact hb hn

/-- The end of the data is announced for a record that is torn down and read to its end. -/
theorem ended_of_read (hsound : r.Sound) (hcurrent : r.registry.Current) {room : Nat} {k : CallId}
    (h : .finish k (.bytes []) ∈ (r.react (.read a room)).2) :
    k = r.calls ∧ (room = 0 ∨ ∃ p x, r.registry.Newest a p ∧ r.registry.peers[p]? = some x ∧
      x.closed = true ∧ x.inbox.unread = []) := by
  obtain ⟨hk,hanswer⟩ := read_answers hsound h
  refine ⟨hk,?_⟩
  generalize hresult : Result.bytes [] = result at hanswer
  cases hanswer with
  | shut hc => cases hresult
  | unknown hl => cases hresult
  | marked hl => exact .inr (hcurrent.drained a (Registry.drained_of_readable hl))
  | nothing hz => exact .inl hz
  | bytes hl hx hr hu => exact absurd (Result.bytes.inj hresult).symm (take_ne_nil hu hr)
  | ended hl hx hcl hu => exact .inr ⟨_,_,newest_of_readable hcurrent hl,hx,hcl,hu⟩

/-- No byte a receiver has accepted is lost or closed over. -/
theorem custody_along_play (settings : Settings) (ms : List Move) : Custody settings ms := by
  have hsound := (sound_start settings).play ms
  have hstart : (start settings).registry.Current := Registry.current_empty _
  have htidy := Tidy.play (tidy_start settings) (sound_start settings) ms
  refine ⟨fun p => ?_,fun a p hc more hu => ?_,fun m k hm hopen => ?_,fun m k a hm => ?_⟩
  · rw [returned_append_unread (sound_start settings) ms p]
    rfl
  · rcases Held.play (.inl hc) hsound htidy more with hheld | hyields
    · have hl := hheld.readable (Tidy.play htidy hsound more) hu
      exact .inl ⟨hl,fun hopen room hr => read_bytes hopen hr hl hu⟩
    · exact .inr hyields
  · have hne : m ≠ .event .close := by
      rintro rfl
      rw [show ((after settings ms).make (.event .close)).1.closing = true from shut_closing _]
        at hopen
      cases hopen
    rw [make_closing hne] at hopen
    cases m with
    | event e =>
      obtain ⟨a,room,rfl⟩ := react_ofRead hm trivial
      obtain ⟨hk,hend⟩ := ended_of_read hsound (Current.play hstart (sound_start settings) ms) hm
      exact ⟨ms,[],a,room,rfl,hk.symm,hend⟩
    | retry j =>
      obtain ⟨p,room,x,hcall,hx,hr,⟨hu,hresult⟩ | ⟨hu,hcl | hcl,_⟩⟩ :=
        poll_ofRead hsound hm trivial
      · exact absurd (Result.bytes.inj hresult).symm (take_ne_nil hu hr)
      · rcases calling_play hcall with hnone | ⟨xs,ys,a,rfl,hk,hl⟩
        · cases hnone
        · exact ⟨xs,ys ++ [.retry j],a,room,by simp,hk,.inr ⟨p,x,
            newest_of_readable (Current.play hstart (sound_start settings) xs) hl,hx,hcl,hu⟩⟩
      · rw [hopen] at hcl
        cases hcl
  · cases m with
    | event e =>
      obtain ⟨b,room,rfl⟩ := react_ofRead hm trivial
      obtain ⟨_,hanswer⟩ := read_answers hsound hm
      cases hanswer with
      | unknown hl => exact ⟨room,rfl,Registry.unknown_of_readable hl⟩
    | retry j =>
      obtain ⟨p,room,x,_,_,_,⟨_,hresult⟩ | ⟨_,_,hresult⟩⟩ := poll_ofRead hsound hm trivial
      · cases hresult
      · cases hresult

/-- An address connects, sends two bytes, asks to close and is torn down; then one byte is read. -/
def halfRead (a : Address) : List Move :=
  [.event (.datagram a (Frame.encode ⟨.rcon,0,0,[]⟩)),.event .acceptOne,
    .event (.datagram a (Frame.encode ⟨.data,1,0,[97,98]⟩)),
    .event (.datagram a (Frame.encode ⟨.rcls,0,0,[]⟩)),.event (.tick 0),.event (.read a 1)]

theorem custody_along_play_halfRead :
    let a : Address := ⟨.localhost,0,4001⟩
    let settings : Settings := ⟨64,.ofMillis 1500,.ofMillis 500,1,true⟩
    Custody settings (halfRead a) ∧ (start settings).accepted (halfRead a) 0 = [[97,98]] ∧
      (start settings).returned (halfRead a) 0 = [[97]] ∧
      (after settings (halfRead a)).registry.connected = [] ∧
      (after settings (halfRead a)).registry.readable a = .live 0 ∧
      (after settings (halfRead a)).registry.unreadOf 0 = [98] :=
  ⟨custody_along_play _ _,by decide +kernel,by decide +kernel,by decide +kernel,by decide +kernel,
    by decide +kernel⟩

end Receiver
end ReliableTransport
