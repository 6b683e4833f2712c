import ReliableTransport.Proofs.Chronicle

/-! When an event is over. A round in which every woken call tries again leaves none awake, or it
has answered one (`round_asleep`); so there are enough rounds for all of them, and nothing happens
to a sender while a call is awake (`timely_unroll`). Hence an event never finds a call waiting for
what is already there (`Asleep.unanswered`). -/
namespace ReliableTransport
namespace Sender

open Connection (Few)

variable {s : Sender} {c : ConnRef} {k : CallId}

def Asleep (s : Sender) : Prop := ∀ w ∈ s.waiting, w.woken = false

theorem length_held (s : Sender) : s.held.length = s.waiting.length := List.length_map _

theorem attempt_waiting {call later : Call} (h : (s.attempt call).1 = .wait later) :
    (s.attempt call).2.2.waiting = s.waiting := by
  cases hx : s.conns[call.conn]? with
  | none => rw [attempt_of_none hx]
  | some x =>
    cases call with
    | connect d => rw [attempt_connect_unchanged]
    | disconnect d =>
      have hx : s.conns[d]? = some x := hx
      rw [attempt_disconnect hx] at h ⊢
      split at h
      · cases h
      · rename_i hc
        split at h
        · cases h
        · rename_i hd
          rw [if_neg hc,if_neg hd]
    | send d rest last =>
      have hx : s.conns[d]? = some x := hx
      by_cases hc : rest ≠ [] ∧ x.closed = true
      · rw [attempt_send_of_closed last hx hc]
      · rw [attempt_send last hx hc]
        rfl

theorem poll_round {call : Call} (hr : Waiting.ready? s.waiting k = some call) :
    ((s.poll k).1.waiting.length = s.waiting.length ∧ ∀ w ∈ (s.poll k).1.waiting,
      w.woken = true → w ∈ s.waiting ∧ w.id ≠ k) ∨
    (s.poll k).1.waiting.length < s.waiting.length := by
  cases ho : (s.attempt call).1 with
  | wait later =>
    left
    have hwaiting : (s.poll k).1.waiting =
        s.waiting.map fun w => if w.id = k then ⟨k,later,false⟩ else w := by
      simp only [poll,hr,ho,Waiting.settle,attempt_waiting ho]
    rw [hwaiting]
    refine ⟨List.length_map _,fun w hw hwoken => ?_⟩
    obtain ⟨v,hv,rfl⟩ := List.mem_map.mp hw
    by_cases hk : v.id = k
    · rw [if_pos hk] at hwoken
      cases hwoken
    · rw [if_neg hk]
      exact ⟨hv,hk⟩
  | answer result =>
    right
    rw [← length_held,← length_held,poll_held hr,ho]
    exact List.length_filter_lt_length_iff_exists.mpr ⟨_,mem_held_of_ready hr,by simp⟩

theorem poll_waiting_le (s : Sender) (k : CallId) :
    (s.poll k).1.waiting.length ≤ s.waiting.length := by
  cases hr : Waiting.ready? s.waiting k with
  | none => exact Nat.le_of_eq (by rw [poll_none hr])
  | some call =>
    rcases poll_round hr with ⟨he,_⟩ | hlt
    · exact Nat.le_of_eq he
    · exact Nat.le_of_lt hlt

theorem round_le (s : Sender) (ks : List CallId) :
    (chain poll s ks).1.waiting.length ≤ s.waiting.length := by
  induction ks generalizing s with
  | nil => exact Nat.le_refl _
  | cons k ks ih => exact Nat.le_trans (ih _) (poll_waiting_le s k)

/-- A round leaves no call awake, or it has answered one. -/
theorem round_asleep {ks : List CallId} (h : ∀ w ∈ s.waiting, w.woken = true → w.id ∈ ks) :
    (chain poll s ks).1.Asleep ∨ (chain poll s ks).1.waiting.length < s.waiting.length := by
  induction ks generalizing s with
  | nil =>
    refine .inl fun w hw => Bool.eq_false_iff.mpr fun hwoken => ?_
    cases h w hw hwoken
  | cons k ks ih =>
    rw [chain_cons]
    cases hr : Waiting.ready? s.waiting k with
    | none =>
      rw [poll_none hr]
      refine ih fun w hw hwoken => (List.mem_cons.mp (h w hw hwoken)).resolve_left fun hk => ?_
      rw [Waiting.ready?,Option.map_eq_none_iff,List.find?_eq_none] at hr
      exact hr w hw (by simp [hk,hwoken])
    | some call =>
      rcases poll_round hr with ⟨hlen,hwake⟩ | hlt
      · rw [← hlen]
        refine ih fun w hw hwoken => ?_
        obtain ⟨hm,hk⟩ := hwake w hw hwoken
        exact (List.mem_cons.mp (h w hm hwoken)).resolve_left hk
      · exact .inr (Nat.lt_of_le_of_lt (round_le _ ks) hlt)

theorem settleRounds_of_asleep (h : s.Asleep) (fuel : Nat) : settleRounds fuel s = (s,[]) := by
  have hnone : Waiting.ready s.waiting = [] := by
    rw [Waiting.ready,List.filter_eq_nil_iff.mpr fun w hw => by simp [h w hw]]
    rfl
  cases fuel with
  | zero => rfl
  | succ fuel => rw [settleRounds,hnone]; rfl

theorem settleRounds_asleep (fuel : Nat) (h : s.waiting.length < fuel) :
    (settleRounds fuel s).1.Asleep := by
  induction fuel generalizing s with
  | zero => omega
  | succ fuel ih =>
    rw [settleRounds]
    split
    · rename_i he
      refine fun w hw => Bool.eq_false_iff.mpr fun hwoken => ?_
      have hm : w.id ∈ Waiting.ready s.waiting :=
        List.mem_map_of_mem (List.mem_filter.mpr ⟨hw,hwoken⟩)
      rw [List.isEmpty_iff.mp he] at hm
      cases hm
    · simp only
      have hall : ∀ w ∈ s.waiting, w.woken = true → w.id ∈ Waiting.ready s.waiting :=
        fun w hw hwoken => List.mem_map_of_mem (List.mem_filter.mpr ⟨hw,hwoken⟩)
      rcases round_asleep hall with hrest | hlt
      · rw [settleRounds_of_asleep hrest]
        exact hrest
      · exact ih (by omega)

theorem step_asleep (s : Sender) (e : Event) : (s.step e).1.Asleep :=
  settleRounds_asleep _ (Nat.lt_succ_self _)

/-- Something happens only when no call is awake. -/
def Timely : Sender → List Move → Prop
  | _, [] => True
  | s, m :: ms => (∀ e, m = .event e → s.Asleep) ∧ Timely (s.make m).1 ms

theorem timely_append {ms ns : List Move} :
    s.Timely (ms ++ ns) ↔ s.Timely ms ∧ (s.play ms).1.Timely ns := by
  induction ms generalizing s with
  | nil => simp [Timely,play]
  | cons m ms ih =>
    rw [List.cons_append,Timely,Timely,ih,play_cons,and_assoc]

theorem timely_retries (s : Sender) (ks : List CallId) : s.Timely (ks.map .retry) := by
  induction ks generalizing s with
  | nil => trivial
  | cons k ks ih => exact ⟨fun _ he => (nomatch he),ih _⟩

theorem timely_rounds (fuel : Nat) (s : Sender) : s.Timely (rounds fuel s) := by
  induction fuel generalizing s with
  | zero => trivial
  | succ fuel ih =>
    rw [rounds]
    split
    · trivial
    · refine timely_append.mpr ⟨timely_retries s _,?_⟩
      rw [play_retries]
      exact ih _

/-- A run is a play in which nothing happens while a call is awake. -/
theorem timely_unroll (h : s.Asleep) (es : List Event) : s.Timely (s.unroll es) := by
  induction es generalizing s with
  | nil => trivial
  | cons e es ih =>
    rw [unroll,← List.cons_append]
    refine timely_append.mpr ⟨⟨fun _ _ => h,timely_rounds _ _⟩,?_⟩
    rw [← step_eq_play]
    exact ih (step_asleep s e)

theorem asleep_start (settings : Settings) : (start settings).Asleep := fun _ hw => by cases hw

/-- As long as few payloads are pushed on the connection, every sleeping call about it waits for
something that is not there. -/
theorem Known.patient {log : List Connection.Happening} (h : s.Known c log) (hp : s.Patient c)
    (ms : List Move) (hf : Few (log ++ chronicle c s ms)) : (s.play ms).1.Patient c := by
  induction ms generalizing s log with
  | nil => exact hp
  | cons m ms ih =>
    rw [chronicle,← List.append_assoc] at hf
    refine ih (h.make m) ?_ hf
    cases m with
    | retry k => exact hp.poll k
    | event e =>
      have hfew := hf.of_append.of_append
      exact hp.react h.sound (fun x hx => (h.conduct hfew x hx).outbox.imp_left (·.1)) e

theorem patient_play (settings : Settings) (ms : List Move) (c : ConnRef)
    (hf : Few (chronicle c (start settings) ms)) : ((start settings).play ms).1.Patient c :=
  (known_start settings c).patient (fun _ hw => by cases hw) ms hf

/-- A connection that a sleeping call asks for has not been accepted. -/
theorem Asleep.unanswered (h : s.Asleep) (hp : s.Patient c) (ha : Asking s c) {x : Connection}
    (hx : s.conns[c]? = some x) : x.outbox.established = false := by
  obtain ⟨w,hw,hcall⟩ := ha
  have hb := hp w hw (by rw [hcall]; rfl) (h w hw)
  rw [hcall] at hb
  obtain ⟨y,hy,_,hn⟩ := hb
  rw [hx] at hy
  rwa [Option.some.inj hy]

end Sender
end ReliableTransport
