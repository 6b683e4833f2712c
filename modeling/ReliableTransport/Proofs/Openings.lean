import ReliableTransport.Proofs.Callers

/-! How the connections of a sender come to be. Only a call for a connection makes one
(`onConnect_eq`, `react_length`), and nothing is sent from a connection that is not there
(`react_said_of_none`). -/
namespace ReliableTransport
namespace Sender

open Connection (leaveFrame)

variable {s : Sender}

/-- A new connection asks its remote, and its caller waits. -/
theorem onConnect_eq (s : Sender) (bound remote : Address) (now : Nat) :
    s.onConnect bound remote now =
      ({ s with
          conns := s.conns ++
            [Connection.start s.table.allocate.1 bound remote s.settings.threshold now]
          table := s.table.allocate.2.insert s.table.allocate.1 s.conns.length
          waiting := s.waiting ++ [⟨s.calls,.connect s.conns.length,false⟩]
          calls := s.calls + 1 },[.send s.conns.length Connection.requestFrame]) := by
  have hn : (Connection.start s.table.allocate.1 bound remote s.settings.threshold
      now).outbox.established = false := (Outbox.untouched_start now).not_established
  have hc : (Connection.start s.table.allocate.1 bound remote s.settings.threshold
      now).closed = false := rfl
  simp only [Sender.onConnect,Sender.enter,Sender.attempt,Call.conn,List.getElem?_concat_length,hn,
    hc,Bool.false_eq_true,if_false,Waiting.enter]

def Quiet (s : Sender) (c : ConnRef) : Prop :=
  ∃ x, s.conns[c]? = some x ∧ x.closed = false ∧ x.outbox.drained = true

/-- Only a call to leave a connection on which everything is acknowledged has a frame sent. -/
theorem attempt_sent (s : Sender) (call : Call) :
    (s.attempt call).2.1 = [] ∨
      ∃ d, call = .disconnect d ∧ s.Quiet d ∧ (s.attempt call).2.1 = [.send d leaveFrame] := by
  cases hx : s.conns[call.conn]? with
  | none => exact .inl (by rw [attempt_of_none hx])
  | some x =>
    cases call with
    | connect d => exact .inl (by rw [attempt_connect_unchanged])
    | disconnect d =>
      have hx : s.conns[d]? = some x := hx
      rw [attempt_disconnect hx]
      split
      · exact .inl rfl
      · rename_i hc
        split
        · rename_i hd
          exact .inr ⟨d,rfl,⟨x,hx,by simpa using hc,hd⟩,rfl⟩
        · exact .inl rfl
    | send d rest last =>
      have hx : s.conns[d]? = some x := hx
      by_cases hc : rest ≠ [] ∧ x.closed = true
      · exact .inl (by rw [attempt_send_of_closed last hx hc])
      · exact .inl (by rw [attempt_send last hx hc])

theorem attempt_said_of_none {c : ConnRef} (h : s.conns[c]? = none) (call : Call) :
    said c (s.attempt call).2.1 = [] := by
  rcases attempt_sent s call with he | ⟨d,_,⟨x,hx,_⟩,he⟩
  · rw [he]
    rfl
  · rw [he,said_cons_send,if_neg]
    · rfl
    · rintro rfl
      rw [h] at hx
      cases hx

theorem onWake_said_of_none {c : ConnRef} (h : s.conns[c]? = none) (d : ConnRef) (now : Nat) :
    said c (s.onWake d now).2 = [] := by
  unfold Sender.onWake
  split
  · rfl
  · rename_i x hx
    have hne : ¬ d = c := by
      rintro rfl
      rw [h] at hx
      cases hx
    split
    · rfl
    · split
      · rfl
      · simp only
        rw [said_map,if_neg hne]

theorem conns_modify_of_none {c : ConnRef} (h : s.conns[c]? = none) (d : ConnRef)
    (f : Connection → Connection) : (s.modify d f).conns[c]? = none := by
  simp only [Sender.modify,List.getElem?_eq_none_iff,List.length_modify] at h ⊢
  exact h

theorem onDatagram_said_of_none {c : ConnRef} (h : s.conns[c]? = none) (d : ConnRef)
    (source : Address) (raw : Bytes) (now : Nat) :
    said c (s.onDatagram d source raw now).2 = [] := by
  unfold Sender.onDatagram
  split
  · rfl
  · split
    · rfl
    · split
      · rfl
      · split
        · unfold onAccept
          split
          · rfl
          · refine onWake_said_of_none ?_ d now
            exact conns_modify_of_none h d _
        · rfl
        · rfl
        · rfl

/-- Nothing is sent from a connection that has not been made. -/
theorem react_said_of_none (hs : s.Sound) {c : ConnRef} (h : s.conns[c]? = none) (e : Event) :
    said c (s.react e).2 = [] ∨ (c = s.conns.length ∧
      ∃ bound remote now, e = .connect bound remote none now) := by
  cases e with
  | connect bound remote refused now =>
    cases refused with
    | some cause => exact .inl rfl
    | none =>
      by_cases hc : c = s.conns.length
      · exact .inr ⟨hc,bound,remote,now,rfl⟩
      · left
        show said c (s.onConnect bound remote now).2 = []
        rw [onConnect_eq,said_cons_send,if_neg (Ne.symm hc)]
        rfl
  | send number data =>
    left
    simp only [Sender.react]
    split
    · rfl
    · split
      · rfl
      · rw [enter_said]
        exact attempt_said_of_none h _
  | disconnect number =>
    left
    simp only [Sender.react]
    split
    · rfl
    · split
      · rfl
      · rw [enter_said]
        exact attempt_said_of_none (conns_modify_of_none h _ _) _
  | close => exact .inl rfl
  | datagram d source raw now => exact .inl (onDatagram_said_of_none h d source raw now)
  | retry d =>
    left
    simp only [Sender.react,onRetry]
    split
    · rename_i hw
      obtain ⟨w,hw,hcall⟩ := List.any_eq_true.mp hw
      have hlt := hs.about _ (mem_held hw)
      rw [decide_eq_true_eq] at hcall
      rw [hcall] at hlt
      rw [said_cons_send,if_neg]
      · rfl
      · rintro rfl
        exact absurd hlt (Nat.not_lt.mpr (List.getElem?_eq_none_iff.mp h))
    · rfl
  | wake d now => exact .inl (onWake_said_of_none h d now)
  | tick d => exact .inl rfl

theorem onWake_length (s : Sender) (d : ConnRef) (now : Nat) :
    (s.onWake d now).1.conns.length = s.conns.length := by
  unfold Sender.onWake
  split
  · rfl
  · split
    · rfl
    · split
      · exact List.length_modify ..
      · exact List.length_modify ..

theorem onDatagram_length (s : Sender) (d : ConnRef) (source : Address) (raw : Bytes)
    (now : Nat) : (s.onDatagram d source raw now).1.conns.length = s.conns.length := by
  unfold Sender.onDatagram
  split
  · rfl
  · split
    · rfl
    · split
      · rfl
      · split
        · unfold onAccept
          split
          · rfl
          · rw [onWake_length]
            exact List.length_modify ..
        · simp only [onAcknowledge]
          split
          · exact List.length_modify ..
          · exact List.length_modify ..
        · exact List.length_modify ..
        · rfl

theorem onTick_length (s : Sender) (d : ConnRef) :
    (s.onTick d).conns.length = s.conns.length := by
  unfold Sender.onTick
  split
  · rfl
  · split
    · simp only
      split
      · show ((s.conns.modify d _).modify d _).length = _
        rw [List.length_modify,List.length_modify]
      · exact List.length_modify ..
    · rfl

theorem shut_length (s : Sender) : s.shut.conns.length = s.conns.length := by
  have hfold : ∀ (cs : List ConnRef) (t : Sender),
      (cs.foldl (fun s c => (s.modify c fun conn => conn.requestClose.teardown).wakeCalls c)
        t).conns.length = t.conns.length := by
    intro cs
    induction cs with
    | nil => exact fun _ => rfl
    | cons d cs ih =>
      intro t
      rw [List.foldl_cons,ih]
      exact List.length_modify ..
  exact hfold _ _

theorem enter_length (s : Sender) (call : Call) :
    (s.enter call).1.conns.length = s.conns.length := by
  rw [enter_conns,attempt_length]

theorem poll_length (s : Sender) (k : CallId) :
    (s.poll k).1.conns.length = s.conns.length := by
  cases hr : Waiting.ready? s.waiting k with
  | none => rw [poll_none hr]
  | some call => rw [poll_conns hr,attempt_length]

/-- Connections are only ever added, by calls for them. -/
theorem react_length (s : Sender) (e : Event) :
    (s.react e).1.conns.length = s.conns.length ∨
      ∃ bound remote now, e = .connect bound remote none now := by
  cases e with
  | connect bound remote refused now =>
    cases refused with
    | some cause => exact .inl rfl
    | none => exact .inr ⟨bound,remote,now,rfl⟩
  | send number data =>
    left
    simp only [Sender.react]
    split
    · rfl
    · split
      · rfl
      · exact enter_length s _
  | disconnect number =>
    left
    simp only [Sender.react]
    split
    · rfl
    · split
      · rfl
      · rw [enter_length]
        exact List.length_modify ..
  | close => exact .inl (shut_length s)
  | datagram d source raw now => exact .inl (onDatagram_length ..)
  | retry d =>
    left
    simp only [Sender.react,onRetry]
    split
    · rfl
    · rfl
  | wake d now => exact .inl (onWake_length ..)
  | tick d => exact .inl (onTick_length ..)

/-- What comes out when a try of the call `k` comes to an outcome. -/
def finished (k : CallId) (sent : List Output) : Outcome Call Result → List Output
  | .answer result => sent ++ [.finish k result]
  | .wait _ => sent

theorem enter_finished (s : Sender) (call : Call) :
    (s.enter call).2 = finished s.calls (s.attempt call).2.1 (s.attempt call).1 := by
  simp only [enter]
  split
  · rename_i result ho
    rw [ho]
    simp only [answer,finished,attempt_calls]
  · rename_i later ho
    rw [ho]
    rfl

theorem poll_finished {k : CallId} {call : Call} (h : Waiting.ready? s.waiting k = some call) :
    (s.poll k).2 = finished k (s.attempt call).2.1 (s.attempt call).1 := by
  simp only [poll,h]
  split
  · rename_i result ho
    rw [ho]
    rfl
  · rename_i later ho
    rw [ho]
    rfl

def Event.Outer : Event → Prop
  | .datagram _ _ _ _ => True
  | .retry _ => True
  | .wake _ _ => True
  | .tick _ => True
  | _ => False

theorem onWake_outer (s : Sender) (d : ConnRef) (now : Nat) :
    (s.onWake d now).1.calls = s.calls ∧ ∀ k result, .finish k result ∉ (s.onWake d now).2 := by
  unfold Sender.onWake
  split
  · exact ⟨rfl,by simp⟩
  · split
    · exact ⟨rfl,by simp⟩
    · split
      · exact ⟨rfl,by simp⟩
      · exact ⟨rfl,by simp⟩

theorem onDatagram_outer (s : Sender) (d : ConnRef) (source : Address) (raw : Bytes)
    (now : Nat) : (s.onDatagram d source raw now).1.calls = s.calls ∧
      ∀ k result, .finish k result ∉ (s.onDatagram d source raw now).2 := by
  unfold Sender.onDatagram
  split
  · exact ⟨rfl,by simp⟩
  · split
    · exact ⟨rfl,by simp⟩
    · split
      · exact ⟨rfl,by simp⟩
      · split
        · unfold onAccept
          split
          · exact ⟨rfl,by simp⟩
          · exact onWake_outer _ d now
        · simp only [onAcknowledge]
          split
          · exact ⟨rfl,by simp⟩
          · exact ⟨rfl,by simp⟩
        · exact ⟨rfl,by simp⟩
        · exact ⟨rfl,by simp⟩

theorem onTick_calls (s : Sender) (d : ConnRef) : (s.onTick d).calls = s.calls := by
  unfold Sender.onTick
  split
  · rfl
  · split
    · simp only
      split
      · rfl
      · rfl
    · rfl

theorem react_outer (s : Sender) {e : Event} (h : e.Outer) :
    (s.react e).1.calls = s.calls ∧ (s.react e).1.held = s.held ∧
      ∀ k result, .finish k result ∉ (s.react e).2 := by
  cases e with
  | datagram d source raw now =>
    obtain ⟨hc,hf⟩ := onDatagram_outer s d source raw now
    exact ⟨hc,onDatagram_held s d source raw now,hf⟩
  | retry d =>
    simp only [Sender.react,onRetry]
    split
    · exact ⟨rfl,rfl,by simp⟩
    · exact ⟨rfl,rfl,by simp⟩
  | wake d now =>
    obtain ⟨hc,hf⟩ := onWake_outer s d now
    exact ⟨hc,onWake_held s d now,hf⟩
  | tick d => exact ⟨onTick_calls s d,onTick_held s d,by simp [Sender.react]⟩
  | connect _ _ _ _ => exact h.elim
  | send _ _ => exact h.elim
  | disconnect _ => exact h.elim
  | close => exact h.elim

theorem shut_calls (s : Sender) : s.shut.calls = s.calls := by
  have hfold : ∀ (cs : List ConnRef) (t : Sender),
      (cs.foldl (fun s c => (s.modify c fun conn => conn.requestClose.teardown).wakeCalls c)
        t).calls = t.calls := by
    intro cs
    induction cs with
    | nil => exact fun _ => rfl
    | cons d cs ih => exact fun t => ih _
  exact hfold _ _

theorem of_finished {k j : CallId} {call : Call} {result : Result}
    (h : .finish j result ∈ finished k (s.attempt call).2.1 (s.attempt call).1) :
    j = k ∧ (s.attempt call).1 = .answer result := by
  have hsent : .finish j result ∉ (s.attempt call).2.1 := by
    rcases attempt_sent s call with he | ⟨d,_,_,he⟩
    · rw [he]
      simp
    · rw [he]
      simp
  unfold finished at h
  split at h
  · rename_i given ho
    simp only [List.mem_append,List.mem_singleton,Output.finish.injEq] at h
    rcases h with h | ⟨rfl,rfl⟩
    · exact absurd h hsent
    · exact ⟨rfl,ho⟩
  · exact absurd h hsent

theorem of_answer {k : CallId} {result given : Result}
    (h : .finish k result ∈ (s.answer [] given).2) : k = s.calls := by
  simp only [answer,List.nil_append,List.mem_singleton,Output.finish.injEq] at h
  exact h.1

theorem react_finish {e : Event} {k : CallId} {result : Result}
    (h : .finish k result ∈ (s.react e).2) : k = s.calls := by
  cases e with
  | connect bound remote refused now =>
    cases refused with
    | some cause => exact of_answer h
    | none =>
      simp only [react,onConnect_eq] at h
      simp at h
  | send id data =>
    simp only [react] at h
    split at h
    · exact of_answer h
    · split at h
      · exact of_answer h
      · rw [enter_finished] at h
        exact (of_finished h).1
  | disconnect id =>
    simp only [react] at h
    split at h
    · exact of_answer h
    · split at h
      · exact of_answer h
      · rw [enter_finished] at h
        exact (of_finished h).1
  | close =>
    have hk := of_answer (s := s.shut) h
    rw [hk,shut_calls]
  | datagram d source raw now =>
    exact absurd h ((react_outer s (e := .datagram d source raw now) trivial).2.2 k result)
  | retry d => exact absurd h ((react_outer s (e := .retry d) trivial).2.2 k result)
  | wake d now => exact absurd h ((react_outer s (e := .wake d now) trivial).2.2 k result)
  | tick d => exact absurd h ((react_outer s (e := .tick d) trivial).2.2 k result)

theorem calls_le_react (s : Sender) (e : Event) : s.calls ≤ (s.react e).1.calls := by
  cases e with
  | connect bound remote refused now =>
    cases refused with
    | some cause => exact Nat.le_succ _
    | none =>
      simp only [react,onConnect_eq]
      exact Nat.le_succ _
  | send id data =>
    simp only [react]
    split
    · exact Nat.le_succ _
    · split
      · exact Nat.le_succ _
      · rw [enter_calls]
        exact Nat.le_succ _
  | disconnect id =>
    simp only [react]
    split
    · exact Nat.le_succ _
    · split
      · exact Nat.le_succ _
      · rw [enter_calls]
        exact Nat.le_succ _
  | close =>
    show s.calls ≤ s.shut.calls + 1
    rw [shut_calls]
    exact Nat.le_succ _
  | datagram d source raw now =>
    exact Nat.le_of_eq (react_outer s (e := .datagram d source raw now) trivial).1.symm
  | retry d => exact Nat.le_of_eq (react_outer s (e := .retry d) trivial).1.symm
  | wake d now => exact Nat.le_of_eq (react_outer s (e := .wake d now) trivial).1.symm
  | tick d => exact Nat.le_of_eq (react_outer s (e := .tick d) trivial).1.symm

end Sender
end ReliableTransport
