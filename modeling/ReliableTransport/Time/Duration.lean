import ReliableTransport.Overflow

/-! Lengths of time in nanoseconds, up to the longest one that 64 bits of whole seconds can
state. Sums and products either report that they leave the range or stop at its end. -/
namespace ReliableTransport

abbrev Duration.limit : Nat := 18446744073709551616000000000

structure Duration where
  nanos : Nat
  bounded : nanos < Duration.limit
  deriving DecidableEq

namespace Duration

def ofNanos? (n : Nat) : Option Duration :=
  if h : n < limit then some ⟨n,h⟩ else none

def ofNanos (n : Nat) : Duration := ⟨min n (limit - 1),by unfold limit; omega⟩

def ofMillis (ms : UInt64) : Duration :=
  ⟨ms.toNat*1000000,by have h := ms.toNat_lt; unfold limit; omega⟩

def zero : Duration := ⟨0,by decide⟩

def longest : Duration := ⟨limit - 1,by decide⟩

instance : Inhabited Duration := ⟨zero⟩

def add (a b : Duration) : Except Overflow Duration :=
  match ofNanos? (b.nanos + a.nanos) with
  | some d => .ok d
  | none => .error .durationSum

def scale (d : Duration) (k : Nat) : Except Overflow Duration :=
  match ofNanos? (d.nanos*k) with
  | some d => .ok d
  | none => .error .durationProduct

def addClamped (a b : Duration) : Duration := ofNanos (b.nanos + a.nanos)

def scaleClamped (d : Duration) (k : Nat) : Duration := ofNanos (d.nanos*k)

@[simp] theorem nanos_ofNanos (n : Nat) : (ofNanos n).nanos = min n (limit - 1) := rfl

@[simp] theorem nanos_addClamped (a b : Duration) :
    (a.addClamped b).nanos = min (a.nanos + b.nanos) (limit - 1) := by
  rw [addClamped,nanos_ofNanos,Nat.add_comm]

@[simp] theorem nanos_zero : zero.nanos = 0 := rfl

theorem ofNanos?_eq_some_iff {n : Nat} {d : Duration} : ofNanos? n = some d ↔ d.nanos = n := by
  rcases d with ⟨m,hm⟩
  unfold ofNanos?
  split
  · simp [eq_comm]
  · rename_i h
    simp
    rintro rfl
    exact h hm

theorem add_eq_ok_iff {a b d : Duration} : a.add b = .ok d ↔ d.nanos = a.nanos + b.nanos := by
  rw [Nat.add_comm,← ofNanos?_eq_some_iff,add]
  cases ofNanos? (b.nanos + a.nanos) <;> simp

theorem scale_eq_ok_iff {d e : Duration} {k : Nat} : d.scale k = .ok e ↔ e.nanos = d.nanos*k := by
  rw [← ofNanos?_eq_some_iff,scale]
  cases ofNanos? (d.nanos*k) <;> simp

end Duration
end ReliableTransport
