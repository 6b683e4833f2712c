import ReliableTransport.Calls

/-! What a party whose calls wait owes each of them. From some moment on the answer of a call is
settled: it waits on and was told nothing, or it waits no more and was told that answer only
(`Fate`). Events leave this as it is, and so does whoever tries again, as long as the answer is what
a try would come to by then. -/
namespace ReliableTransport
namespace Waiting

variable {γ ρ : Type}

/-- The calls that wait, by their numbers, after one of them has tried again. -/
def retried (calls : List (CallId × γ)) (k : CallId) : Outcome γ ρ → List (CallId × γ)
  | .wait call => calls.map fun e => if e.1 = k then (k,call) else e
  | .answer _ => calls.filter fun e => e.1 ≠ k

theorem retried_settle (ws : List (Waiting γ)) (k : CallId) (o : Outcome γ ρ) :
    (settle ws k o).map (fun w => (w.id,w.call)) =
      retried (ws.map fun w => (w.id,w.call)) k o := by
  cases o with
  | wait call =>
    simp only [settle,retried,List.map_map]
    refine List.map_congr_left fun w _ => ?_
    simp only [Function.comp_apply]
    split
    · rfl
    · rfl
  | answer result => simp [settle,retried,List.filter_map,Function.comp_def]

theorem mem_retried {calls : List (CallId × γ)} {k : CallId} {e : CallId × γ} (he : e.1 ≠ k)
    (o : Outcome γ ρ) : e ∈ retried calls k o ↔ e ∈ calls := by
  cases o with
  | answer result => simp [retried,he]
  | wait later =>
    simp only [retried,List.mem_map]
    refine ⟨?_,fun hm => ⟨e,hm,if_neg he⟩⟩
    rintro ⟨f,hf,rfl⟩
    split at he
    · exact absurd rfl he
    · rwa [if_neg ‹_›]

/-- A call waits on and was told nothing, or it waits no more and was told `answer` and nothing
else. -/
def Fate (calls : List (CallId × γ)) (told : ρ → Prop) (e : CallId × γ) (answer : ρ) : Prop :=
  (e ∈ calls ∧ ∀ result, ¬ told result) ∨
    ((∀ later, (e.1,later) ∉ calls) ∧ ∀ result, told result ↔ result = answer)

variable {calls after : List (CallId × γ)} {told since : ρ → Prop} {e : CallId × γ} {answer : ρ}

/-- Nothing is new for a call that stays as it is and is told nothing. -/
theorem Fate.keep (h : Fate calls told e answer) (hstay : e ∈ calls → e ∈ after)
    (hold : ∀ later, (e.1,later) ∈ after → ∃ call, (e.1,call) ∈ calls)
    (htold : ∀ result, since result ↔ told result) : Fate after since e answer := by
  rcases h with ⟨hm,hnone⟩ | ⟨hout,hall⟩
  · exact .inl ⟨hstay hm,fun result hs => hnone result ((htold result).mp hs)⟩
  · refine .inr ⟨fun later hm => ?_,fun result => (htold result).trans (hall result)⟩
    obtain ⟨call,hcall⟩ := hold later hm
    exact hout call hcall

/-- A call is told its answer when it is the one that tries again. -/
theorem Fate.retry (h : Fate calls told e answer) {k : CallId} {call : γ} (hk : (k,call) ∈ calls)
    {o : Outcome γ ρ} (ho : e ∈ calls → e.1 = k → o = .answer answer)
    (htold : ∀ result, since result ↔ told result ∨ (e.1 = k ∧ o = .answer result)) :
    Fate (retried calls k o) since e answer := by
  by_cases hek : e.1 = k
  · rcases h with ⟨hm,hnone⟩ | ⟨hout,_⟩
    · obtain rfl := ho hm hek
      refine .inr ⟨fun later hl => of_decide_eq_true (List.mem_filter.mp hl).2 hek,
        fun result => ?_⟩
      rw [htold,or_iff_right (hnone result),and_iff_right hek]
      exact ⟨fun heq => (Outcome.answer.inj heq).symm,fun heq => heq ▸ rfl⟩
    · exact absurd (hek ▸ hk) (hout call)
  · exact h.keep (mem_retried hek o).mpr
      (fun later hl => ⟨later,(mem_retried (e := (e.1,later)) hek o).mp hl⟩)
      fun result => (htold result).trans (or_iff_left fun hnew => hek hnew.1)

theorem Fate.over (h : Fate calls told e answer) (hout : e ∉ calls) :
    (∀ later, (e.1,later) ∉ calls) ∧ ∀ result, told result ↔ result = answer :=
  h.resolve_left fun hwaits => hout hwaits.1

end Waiting
end ReliableTransport
