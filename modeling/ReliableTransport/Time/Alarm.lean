import ReliableTransport.Dict

/-! Things that repeat. Each of them has an alarm for the next time it is due; the alarms follow
from what is active, so that nothing has to be started or stopped by hand. An alarm that rings
late is set again from the moment it rang (`get?_rearm`), and one that stays active is left alone
otherwise (`get?_sync`). -/
namespace ReliableTransport

abbrev Alarms (κ : Type) := Dict κ Nat

namespace Alarms

variable {κ : Type} [DecidableEq κ]

/-- The alarms of what is active; a new one rings after a period of its own. -/
def sync (alarms : Alarms κ) (active : List κ) (period : κ → Nat) (now : Nat) : Alarms κ :=
  alarms.filter (fun e => e.1 ∈ active) ++
    (active.filter fun k => (alarms.get? k).isNone).map fun k => (k,now + period k)

def due (alarms : Alarms κ) (now : Nat) : List κ := (alarms.filter fun e => e.2 ≤ now).map (·.1)

def next? (alarms : Alarms κ) : Option Nat := (alarms.map (·.2)).min?

def rearm (alarms : Alarms κ) (period : κ → Nat) (now : Nat) : Alarms κ :=
  alarms.map fun e => if e.2 ≤ now then (e.1,now + period e.1) else e

theorem get?_rearm (alarms : Alarms κ) (period : κ → Nat) (now : Nat) (a : κ) :
    (alarms.rearm period now).get? a =
      (alarms.get? a).map fun t => if t ≤ now then now + period a else t := by
  unfold rearm
  induction alarms with
  | nil => rfl
  | cons e alarms ih =>
    rcases e with ⟨k,t⟩
    by_cases hk : k = a
    · subst hk
      by_cases ht : t ≤ now <;> simp [Dict.get?,ht]
    · by_cases ht : t ≤ now <;> simp [Dict.get?,ht,hk,ih]

theorem get?_map_of_mem (ks : List κ) (f : κ → Nat) (a : κ) :
    Dict.get? (ks.map fun k => (k,f k)) a = if a ∈ ks then some (f a) else none := by
  induction ks with
  | nil => rfl
  | cons k ks ih =>
    by_cases hk : k = a
    · subst hk
      simp [Dict.get?]
    · have hne : ¬ a = k := fun h => hk h.symm
      simp [Dict.get?,hk,hne,ih]

theorem get?_sync (alarms : Alarms κ) (active : List κ) (period : κ → Nat) (now : Nat) (a : κ) :
    (alarms.sync active period now).get? a =
      if a ∈ active then some ((alarms.get? a).getD (now + period a)) else none := by
  have hold := Dict.get?_filter alarms (fun k => decide (k ∈ active)) a
  rw [sync,Dict.get?_append,hold,get?_map_of_mem]
  by_cases ha : a ∈ active
  · cases hg : alarms.get? a <;> simp [ha,hg]
  · simp [ha]

end Alarms
end ReliableTransport
