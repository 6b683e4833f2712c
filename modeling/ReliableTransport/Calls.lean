/-! Steps in a row, and calls that wait. A caller whose answer is not there yet waits until it is
woken; it then tries again, and either gets its answer or waits on. Waking only marks a call, so
that a call nobody wakes stays where it is even if its answer could be had. -/
namespace ReliableTransport

/-- Take steps in a row and collect what they put out. -/
def chain {σ ε ω : Type} (step : σ → ε → σ × List ω) : σ → List ε → σ × List ω
  | s, [] => (s,[])
  | s, e :: es =>
    let now := step s e
    let later := chain step now.1 es
    (later.1,now.2 ++ later.2)

@[simp] theorem chain_nil {σ ε ω : Type} (step : σ → ε → σ × List ω) (s : σ) :
    chain step s [] = (s,[]) := rfl

theorem chain_cons {σ ε ω : Type} (step : σ → ε → σ × List ω) (s : σ) (e : ε) (es : List ε) :
    chain step s (e :: es) =
      ((chain step (step s e).1 es).1,(step s e).2 ++ (chain step (step s e).1 es).2) := rfl

theorem chain_append {σ ε ω : Type} (step : σ → ε → σ × List ω) (s : σ) (es fs : List ε) :
    chain step s (es ++ fs) =
      ((chain step (chain step s es).1 fs).1,
        (chain step s es).2 ++ (chain step (chain step s es).1 fs).2) := by
  induction es generalizing s with
  | nil => simp
  | cons e es ih => simp [chain_cons,ih,List.append_assoc]

theorem chain_map {σ δ ε ω : Type} (step : σ → ε → σ × List ω) (f : δ → ε) (s : σ)
    (ds : List δ) : chain step s (ds.map f) = chain (fun s d => step s (f d)) s ds := by
  induction ds generalizing s with
  | nil => rfl
  | cons d ds ih => rw [List.map_cons,chain_cons,chain_cons,ih]

/-- Steps that each come to smaller ones in a row come to smaller ones when taken in a row. -/
theorem chain_refine {σ δ ε ω : Type} {step : σ → ε → σ × List ω} {make : σ → δ → σ × List ω}
    (h : ∀ s e, ∃ ds, step s e = chain make s ds) (s : σ) (es : List ε) :
    ∃ ds, chain step s es = chain make s ds := by
  induction es generalizing s with
  | nil => exact ⟨[],rfl⟩
  | cons e es ih =>
    obtain ⟨now,hnow⟩ := h s e
    obtain ⟨later,hlater⟩ := ih (step s e).1
    exact ⟨now ++ later,by rw [chain_cons,hlater,hnow,chain_append]⟩

/-- What holds at first and survives every step holds after steps in a row. -/
theorem chain_induct {σ ε ω : Type} {step : σ → ε → σ × List ω} {P : σ → Prop} {s : σ} (h : P s)
    (hstep : ∀ t, P t → ∀ e, P (step t e).1) (es : List ε) : P (chain step s es).1 := by
  induction es generalizing s with
  | nil => exact h
  | cons e es ih => exact ih (hstep s h e)

/-- A call, by the order in which calls were made. -/
abbrev CallId := Nat

/-- What a party with calls does next: react to an event, or let a woken call try again. -/
inductive PartyMove (ε : Type)
  | event (e : ε)
  | retry (k : CallId)
  deriving DecidableEq

inductive Outcome (γ ρ : Type)
  | wait (call : γ)
  | answer (result : ρ)
  deriving DecidableEq

/-- A call that waits, and whether it has been woken to try again. -/
structure Waiting (γ : Type) where
  id : CallId
  call : γ
  woken : Bool
  deriving DecidableEq

namespace Waiting

variable {γ ρ : Type}

/-- Wake the calls that wait for a thing. -/
def wake (ws : List (Waiting γ)) (concerns : γ → Bool) : List (Waiting γ) :=
  ws.map fun w => { w with woken := w.woken || concerns w.call }

/-- The calls that are to try again, in the order in which they were made. -/
def ready (ws : List (Waiting γ)) : List CallId := (ws.filter (·.woken)).map (·.id)

/-- The call of a number, if it is to try again. -/
def ready? (ws : List (Waiting γ)) (k : CallId) : Option γ :=
  (ws.find? fun w => w.id = k && w.woken).map (·.call)

theorem mem_of_ready? {ws : List (Waiting γ)} {k : CallId} {call : γ}
    (h : ready? ws k = some call) : ∃ w ∈ ws, w.id = k ∧ w.call = call := by
  obtain ⟨w,hw,hcall⟩ := Option.map_eq_some_iff.mp h
  have hk := List.find?_some hw
  simp only [Bool.and_eq_true,decide_eq_true_eq] at hk
  exact ⟨w,List.mem_of_find?_eq_some hw,hk.1,hcall⟩

/-- The waiting calls after one of them has tried again. -/
def settle (ws : List (Waiting γ)) (k : CallId) : Outcome γ ρ → List (Waiting γ)
  | .wait call => ws.map fun w => if w.id = k then ⟨k,call,false⟩ else w
  | .answer _ => ws.filter fun w => w.id ≠ k

def enter (ws : List (Waiting γ)) (k : CallId) : Outcome γ ρ → List (Waiting γ)
  | .wait call => ws ++ [⟨k,call,false⟩]
  | .answer _ => ws

end Waiting
end ReliableTransport
