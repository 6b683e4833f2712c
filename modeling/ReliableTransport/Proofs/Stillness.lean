import ReliableTransport.Proofs.Answers

/-! When an event at a receiver is over. Every woken call tries once more and then is answered or
waits unwoken (`asleep_settle`), so nothing is left to do between the events of a run. The calls
that wait are told apart by their numbers (`Numbered`). -/
namespace ReliableTransport

theorem filter_map_eq {α : Type} {f : α → α} {p : α → Bool} {l : List α}
    (h : ∀ x ∈ l, (p x = true → f x = x) ∧ (p x = false → p (f x) = false)) :
    (l.map f).filter p = l.filter p := by
  induction l with
  | nil => rfl
  | cons x l ih =>
    have ih := ih fun y hy => h y (List.mem_cons_of_mem _ hy)
    obtain ⟨hsame,hout⟩ := h x List.mem_cons_self
    cases hp : p x with
    | true => rw [List.map_cons,hsame hp,List.filter_cons_of_pos hp,List.filter_cons_of_pos hp,ih]
    | false =>
      rw [List.map_cons,List.filter_cons_of_neg (by simp [hout hp]),
        List.filter_cons_of_neg (by simp [hp]),ih]

namespace Waiting

variable {γ ρ : Type} {ws : List (Waiting γ)} {k : CallId} {call : γ}

theorem filter_wake (ws : List (Waiting γ)) (concerns p : γ → Bool)
    (h : ∀ call, concerns call = true → p call = false) :
    (wake ws concerns).filter (fun w => p w.call) = ws.filter fun w => p w.call := by
  refine filter_map_eq fun w _ => ⟨fun hw => ?_,fun hw => hw⟩
  have hc : concerns w.call = false := Bool.eq_false_iff.mpr fun hc => by simp [h w.call hc] at hw
  simp [hc]

theorem filter_settle {o : Outcome γ ρ} (p : γ → Bool)
    (hk : ∀ w ∈ ws, w.id = k → p w.call = false) (ho : ∀ later, o = .wait later → p later = false) :
    (settle ws k o).filter (fun w => p w.call) = ws.filter fun w => p w.call := by
  cases o with
  | answer result =>
    rw [settle,List.filter_filter]
    refine List.filter_congr fun w hw => ?_
    by_cases hid : w.id = k
    · simp [hk w hw hid]
    · simp [hid]
  | wait later =>
    refine filter_map_eq fun w hw => ⟨fun hp => ?_,fun hp => ?_⟩
    · have hid : ¬ w.id = k := fun hid => by simp [hk w hw hid] at hp
      rw [if_neg hid]
    · by_cases hid : w.id = k
      · rw [if_pos hid]
        exact ho later rfl
      · rwa [if_neg hid]

theorem awake_of_ready? (h : ready? ws k = some call) :
    ∃ w ∈ ws, w.id = k ∧ w.call = call ∧ w.woken = true := by
  obtain ⟨w,hw,hcall⟩ := Option.map_eq_some_iff.mp h
  have hk := List.find?_some hw
  simp only [Bool.and_eq_true,decide_eq_true_eq] at hk
  exact ⟨w,List.mem_of_find?_eq_some hw,hk.1,hcall,hk.2⟩

end Waiting

namespace Receiver

variable {r : Receiver} {k : CallId} {call : Call}

def Asleep (r : Receiver) : Prop := ∀ w ∈ r.waiting, w.woken = false

theorem asleep_start (settings : Settings) : (start settings).Asleep := fun _ hw => by cases hw

theorem settle_of_asleep (h : r.Asleep) : r.settle = (r,[]) := by
  have hnone : Waiting.ready r.waiting = [] := by
    have hfilter : r.waiting.filter (·.woken) = [] :=
      List.filter_eq_nil_iff.mpr fun w hw => by simp [h w hw]
    rw [Waiting.ready,hfilter]
    rfl
  rw [settle,hnone]
  rfl

theorem poll_waiting (hr : Waiting.ready? r.waiting k = some call) :
    (r.poll k).1.waiting = Waiting.settle r.waiting k (r.attempt call).1 := by
  simp only [poll,hr]
  split
  · rename_i result ho
    rw [attempt_waiting]
  · rename_i later ho
    rw [attempt_waiting]

/-- A call that is awake after a try was awake before it, and is another. -/
theorem awake_poll {w : Waiting Call} (hw : w ∈ (r.poll k).1.waiting) (hwoken : w.woken = true) :
    w ∈ r.waiting ∧ w.id ≠ k := by
  cases hr : Waiting.ready? r.waiting k with
  | none =>
    rw [poll_none hr] at hw
    refine ⟨hw,fun hk => ?_⟩
    rw [Waiting.ready?,Option.map_eq_none_iff,List.find?_eq_none] at hr
    exact hr w hw (by simp [hk,hwoken])
  | some call =>
    rw [poll_waiting hr] at hw
    cases ho : (r.attempt call).1 with
    | answer result =>
      rw [ho] at hw
      obtain ⟨hm,hk⟩ := List.mem_filter.mp hw
      exact ⟨hm,by simpa using hk⟩
    | wait later =>
      rw [ho] at hw
      obtain ⟨v,hv,rfl⟩ := List.mem_map.mp hw
      by_cases hk : v.id = k
      · rw [if_pos hk] at hwoken
        cases hwoken
      · rw [if_neg hk]
        exact ⟨hv,hk⟩

theorem asleep_chain {ks : List CallId} (h : ∀ w ∈ r.waiting, w.woken = true → w.id ∈ ks) :
    (chain poll r ks).1.Asleep := by
  induction ks generalizing r with
  | nil =>
    refine fun w hw => Bool.eq_false_iff.mpr fun hwoken => ?_
    cases h w hw hwoken
  | cons k ks ih =>
    refine ih fun w hw hwoken => ?_
    obtain ⟨hm,hk⟩ := awake_poll hw hwoken
    exact (List.mem_cons.mp (h w hm hwoken)).resolve_left hk

/-- When every woken call has tried again none is awake. -/
theorem asleep_settle (r : Receiver) : r.settle.1.Asleep :=
  asleep_chain fun w hw hwoken =>
    List.mem_map.mpr ⟨w,List.mem_filter.mpr ⟨hw,hwoken⟩,rfl⟩

theorem asleep_step (r : Receiver) (e : Event) : (r.step e).1.Asleep :=
  asleep_settle (r.react e).1

theorem asleep_run (settings : Settings) (es : List Event) : ((start settings).run es).1.Asleep :=
  chain_induct (P := Asleep) (asleep_start settings) (fun t _ e => asleep_step t e) es

def ids (r : Receiver) : List CallId := r.waiting.map (·.id)

/-- No two calls that wait have one number, and the next call will have a new one. -/
structure Numbered (r : Receiver) : Prop where
  nodup : r.ids.Nodup
  lt : ∀ k ∈ r.ids, k < r.calls

theorem numbered_start (settings : Settings) : (start settings).Numbered where
  nodup := .nil
  lt := fun _ hk => by cases hk

theorem ids_eq (r : Receiver) : r.ids = r.calling.map (·.1) := by
  simp [ids,calling]

theorem ids_poll (r : Receiver) (k : CallId) : (r.poll k).1.ids.Sublist r.ids := by
  cases hr : Waiting.ready? r.waiting k with
  | none => simp only [poll_none hr,List.Sublist.refl]
  | some call =>
    rw [ids,poll_waiting hr]
    cases (r.attempt call).1 with
    | answer result => exact List.filter_sublist.map _
    | wait later =>
      have hsame : (Waiting.settle (ρ := Result) r.waiting k (.wait later)).map (·.id) = r.ids := by
        simp only [Waiting.settle,ids,List.map_map]
        refine List.map_congr_left fun w _ => ?_
        by_cases hk : w.id = k <;> simp [hk]
      simp only [hsame,List.Sublist.refl]

theorem calls_poll (r : Receiver) (k : CallId) : (r.poll k).1.calls = r.calls := by
  cases hr : Waiting.ready? r.waiting k with
  | none => rw [poll_none hr]
  | some call =>
    simp only [poll,hr]
    split
    · exact attempt_calls r call
    · exact attempt_calls r call

theorem calls_onDatagram (source : Address) (raw : Bytes) :
    (r.onDatagram source raw).1.calls = r.calls := by
  unfold onDatagram
  split
  · rfl
  · split
    · rfl
    · split
      · unfold onConnect
        split
        · split <;> rfl
        · rfl
        all_goals split <;> rfl
      · unfold onData
        split
        · rfl
        · split
          · rfl
          · split
            · rfl
            · simp only
              split <;> rfl
      · unfold onClose
        split
        · rfl
        · split <;> rfl
      · rfl

theorem calls_onTick (r : Receiver) (p : PeerId) : (r.onTick p).calls = r.calls := by
  unfold onTick
  split
  · rfl
  · split
    · simp only
      split <;> rfl
    · rfl

theorem calls_shut (r : Receiver) : r.shut.calls = r.calls := by
  have hfold : ∀ (ps : List PeerId) (t : Receiver),
      (ps.foldl (fun r p => (r.modify p .teardown).wakeReads p) t).calls = t.calls := by
    intro ps
    induction ps with
    | nil => exact fun _ => rfl
    | cons p ps ih => exact fun t => ih _
  unfold shut
  split
  · rfl
  · exact hfold _ _

theorem calls_acceptMany (fuel : Nat) (r : Receiver) : (acceptMany fuel r).2.calls = r.calls := by
  induction fuel generalizing r with
  | zero => rfl
  | succ fuel ih =>
    unfold acceptMany
    cases h : r.acceptNext with
    | none => rfl
    | some e =>
      obtain ⟨a,frame,t⟩ := e
      obtain ⟨_,_,_,_,_,_,_,rfl⟩ := acceptNext_eq_some h
      exact ih _

theorem ids_enter (r : Receiver) (call : Call) :
    ((r.enter call).1.ids = r.ids ∨ (r.enter call).1.ids = r.ids ++ [r.calls]) ∧
      (r.enter call).1.calls = r.calls + 1 := by
  refine ⟨?_,?_⟩
  · rw [ids_eq,ids_eq]
    rcases calling_enter r call with h | h
    · exact .inl (by rw [h])
    · exact .inr (by rw [h,List.map_append]; rfl)
  · simp only [enter]
    split
    · simp only [answer,attempt_calls]
    · rfl

theorem ids_react (r : Receiver) (e : Event) :
    ((r.react e).1.ids = r.ids ∧ r.calls ≤ (r.react e).1.calls) ∨
      ((r.react e).1.ids = r.ids ++ [r.calls] ∧ (r.react e).1.calls = r.calls + 1) := by
  have hanswer : ∀ (t : Receiver) (sent : List Output) (result : Result), t.calling = r.calling →
      t.calls = r.calls → (t.answer sent result).1.ids = r.ids ∧
        r.calls ≤ (t.answer sent result).1.calls := by
    intro t sent result hc hn
    refine ⟨?_,?_⟩
    · rw [ids_eq,ids_eq,← hc]
      rfl
    · simp only [answer,hn]
      omega
  have henter : ∀ call, ((r.enter call).1.ids = r.ids ∧ r.calls ≤ (r.enter call).1.calls) ∨
      ((r.enter call).1.ids = r.ids ++ [r.calls] ∧ (r.enter call).1.calls = r.calls + 1) := by
    intro call
    obtain ⟨h | h,hn⟩ := ids_enter r call
    · exact .inl ⟨h,by omega⟩
    · exact .inr ⟨h,hn⟩
  cases e with
  | datagram source raw =>
    refine .inl ⟨?_,Nat.le_of_eq (calls_onDatagram source raw).symm⟩
    rw [ids_eq,ids_eq]
    exact congrArg _ (calling_onDatagram source raw)
  | acceptOne => exact henter .accept
  | acceptAll =>
    refine .inl ?_
    simp only [react]
    split
    · exact hanswer r _ _ rfl rfl
    · exact hanswer _ _ _ (calling_acceptMany _ r) (calls_acceptMany _ r)
  | read a room =>
    simp only [react]
    split
    · exact .inl (hanswer r _ _ rfl rfl)
    · split
      · exact .inl (hanswer r _ _ rfl rfl)
      · exact .inl (hanswer r _ _ rfl rfl)
      · split
        · exact .inl (hanswer r _ _ rfl rfl)
        · exact henter _
  | tick p =>
    refine .inl ⟨?_,Nat.le_of_eq (calls_onTick r p).symm⟩
    rw [ids_eq,ids_eq]
    exact congrArg _ (calling_onTick r p)
  | close => exact .inl (hanswer _ _ _ (calling_shut r) (calls_shut r))

theorem Numbered.make (h : r.Numbered) (m : Move) : (r.make m).1.Numbered := by
  cases m with
  | event e =>
    show (r.react e).1.Numbered
    rcases ids_react r e with ⟨hids,hle⟩ | ⟨hids,hcalls⟩
    · refine ⟨by rw [hids]; exact h.nodup,fun k hk => ?_⟩
      rw [hids] at hk
      exact Nat.lt_of_lt_of_le (h.lt k hk) hle
    · refine ⟨?_,fun k hk => ?_⟩
      · rw [hids]
        refine List.nodup_append.mpr ⟨h.nodup,by simp,?_⟩
        rintro j hj i hi rfl
        exact absurd (h.lt j hj) (by simp [List.mem_singleton.mp hi])
      · rw [hids,List.mem_append,List.mem_singleton] at hk
        rw [hcalls]
        rcases hk with hk | rfl
        · exact Nat.lt_succ_of_lt (h.lt k hk)
        · exact Nat.lt_succ_self _
  | retry j =>
    show (r.poll j).1.Numbered
    refine ⟨h.nodup.sublist (ids_poll r j),fun k hk => ?_⟩
    rw [calls_poll]
    exact h.lt k ((ids_poll r j).subset hk)

end Receiver
end ReliableTransport
