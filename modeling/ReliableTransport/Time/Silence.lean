import ReliableTransport.Time.Duration

/-! How long a peer has been silent, counted in whole ticks. Anything heard sets the counter back;
a tick that takes it past the threshold means that the peer is gone. A requested close pushes the
counter past the threshold, so that the next tick finishes the work. -/
namespace ReliableTransport

/-- A counter of silence and how much of it is tolerated. -/
structure Silence where
  elapsed : Duration
  threshold : Duration
  deriving DecidableEq

namespace Silence

def margin : Duration := .ofMillis 1

def start (threshold : Duration) : Silence := ⟨.zero,threshold⟩

def reset (s : Silence) : Silence := { s with elapsed := .zero }

def tick (s : Silence) (period : Duration) : Silence :=
  { s with elapsed := s.elapsed.addClamped period }

def expired (s : Silence) : Bool := s.threshold.nanos < s.elapsed.nanos

/-- The counter just past the threshold, or the report that there is no such duration. -/
def force (s : Silence) : Except Overflow Silence :=
  (s.threshold.add margin).map fun d => { s with elapsed := d }

/-- The counter just past the threshold, which is assumed to leave room for the margin. Where it does
not, the program stops with the report of `force`; here the counter stays as it was. -/
def expire (s : Silence) : Silence := s.force.toOption.getD s

theorem force_eq_ok_iff {s t : Silence} :
    s.force = .ok t ↔
      t.threshold = s.threshold ∧ t.elapsed.nanos = s.threshold.nanos + margin.nanos := by
  rcases t with ⟨d,u⟩
  have h := @Duration.add_eq_ok_iff s.threshold margin d
  unfold force
  generalize s.threshold.add margin = r at h ⊢
  cases r with
  | error e => simpa [Except.map] using fun _ => h
  | ok x =>
    simp only [Except.map,Except.ok.injEq,mk.injEq] at h ⊢
    rw [← h]
    constructor
    · rintro ⟨rfl,rfl⟩; simp
    · rintro ⟨rfl,rfl⟩; simp

theorem expire_of_force {s t : Silence} (h : s.force = .ok t) : s.expire = t := by
  rw [expire,h]
  rfl

theorem expire_of_error {s : Silence} {e : Overflow} (h : s.force = .error e) : s.expire = s := by
  rw [expire,h]
  rfl

@[simp] theorem threshold_reset (s : Silence) : s.reset.threshold = s.threshold := rfl

@[simp] theorem threshold_tick (s : Silence) (p : Duration) :
    (s.tick p).threshold = s.threshold := rfl

@[simp] theorem threshold_expire (s : Silence) : s.expire.threshold = s.threshold := by
  cases h : s.force with
  | error e => rw [expire_of_error h]
  | ok t => rw [expire_of_force h,(force_eq_ok_iff.mp h).1]

theorem expire_expire (s : Silence) : s.expire.expire = s.expire := by
  cases h : s.force with
  | error e => rw [expire_of_error h,expire_of_error h]
  | ok t =>
    obtain ⟨ht,he⟩ := force_eq_ok_iff.mp h
    rw [expire_of_force h]
    exact expire_of_force (force_eq_ok_iff.mpr ⟨rfl,by rw [he,ht]⟩)

@[simp] theorem expired_reset (s : Silence) : s.reset.expired = false := by
  simp [reset,expired]

end Silence
end ReliableTransport
