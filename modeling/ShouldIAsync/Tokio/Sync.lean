import Mathlib.Tactic.Common

/-!
# Tokio's `Notify` and `Barrier`

A `Notify` with one task that waits on it, and a `Barrier`, as the polls of their
futures see them. `notify_one` wakes the waiter, and without one it stores a permit,
one at most: `tokens` counts what is on its way to the waiter. A waiter is only
registered where there is no permit, and the type says so.
-/

namespace ShouldIAsync.Tokio

inductive Poll
  | ready
  | pending
  deriving DecidableEq

/-! ## `Notify` -/

/-- The `Notified` of the task that waits: not polled yet, registered, or woken. -/
inductive Waiter
  | absent
  | waiting
  | notified
  deriving DecidableEq

/-- `Notify` with one task that may wait on it. -/
structure Notify where
  permit : Bool
  waiter : Waiter
  noPermit : waiter = .waiting → permit = false

namespace Notify

def new : Notify := ⟨false, .absent, fun _ => rfl⟩

/-- `notify_one`: it wakes who waits, and leaves a permit otherwise. -/
def notifyOne (n : Notify) : Notify :=
  match n.waiter with
  | .waiting => ⟨n.permit, .notified, fun h => by cases h⟩
  | .absent => ⟨true, .absent, fun h => by cases h⟩
  | .notified => ⟨true, .notified, fun h => by cases h⟩

/-- A poll of `notified()`. -/
def pollNotified (n : Notify) : Poll × Notify :=
  match n.waiter with
  | .absent =>
    if n.permit then (.ready, ⟨false, .absent, fun h => by cases h⟩)
    else (.pending, ⟨false, .waiting, fun _ => rfl⟩)
  | .waiting => (.pending, n)
  | .notified => (.ready, ⟨n.permit, .absent, fun h => by cases h⟩)

/-- The notifications that will each let one `notified()` pass. -/
def tokens (n : Notify) : Nat := n.permit.toNat + (decide (n.waiter = .notified)).toNat

@[simp] theorem tokens_new : new.tokens = 0 := rfl

/-- A notification is there afterwards, a new one or one it was merged with. -/
theorem notifyOne_pos (n : Notify) : 0 < n.notifyOne.tokens := by
  unfold notifyOne tokens
  split <;> simp

/-- A `notify_one` counts once at most. -/
theorem notifyOne_le (n : Notify) : n.notifyOne.tokens ≤ n.tokens + 1 := by
  unfold notifyOne tokens
  split
  next h => simp [h]
  next h => simp [h]
  next h => simp [h]

/-- A wait that is over has used up one notification. -/
theorem pollNotified_ready {n n' : Notify} (h : n.pollNotified = (.ready, n')) :
    n.tokens = n'.tokens + 1 ∧ n'.waiter = .absent := by
  unfold pollNotified at h
  split at h
  next hw =>
    split at h
    next hp =>
      obtain rfl : _ = n' := (Prod.mk.inj h).2
      simp [tokens, hw, hp]
    next => cases h
  next => cases h
  next hw =>
    obtain rfl : _ = n' := (Prod.mk.inj h).2
    simp [tokens, hw]

/-- A poll gives pending only if there is no notification, and takes none. -/
theorem pollNotified_pending {n n' : Notify} (h : n.pollNotified = (.pending, n')) :
    n.tokens = 0 ∧ n'.tokens = 0 := by
  unfold pollNotified at h
  split at h
  next hw =>
    split at h
    next => cases h
    next hp =>
      obtain rfl : _ = n' := (Prod.mk.inj h).2
      simp [tokens, hw, hp]
  next hw =>
    obtain rfl : n = n' := (Prod.mk.inj h).2
    simp [tokens, hw, n.noPermit hw]
  next => cases h

/-- Nothing is on its way to a registered waiter. -/
theorem tokens_of_waiting {n : Notify} (h : n.waiter = .waiting) : n.tokens = 0 := by
  unfold tokens
  rw [h, n.noPermit h]
  decide

end Notify

/-! ## `Barrier` -/

structure Barrier where
  n : Nat
  arrived : Nat
  generation : Nat
  arrived_lt : arrived < n

namespace Barrier

/-- `Barrier::new` -/
def new (n : Nat) (hn : 0 < n) : Barrier := ⟨n, 0, 0, hn⟩

/-- The first poll of `wait()`: the last one to arrive passes, and everybody else with
it; the others wait for the end of this generation. -/
def wait (b : Barrier) : Poll × Barrier :=
  if h : b.arrived + 1 < b.n then (.pending, ⟨b.n, b.arrived + 1, b.generation, h⟩)
  else (.ready, ⟨b.n, 0, b.generation + 1, Nat.zero_lt_of_lt b.arrived_lt⟩)

/-- A later poll, of one who arrived in `generation`. -/
def pollWait (b : Barrier) (generation : Nat) : Poll :=
  if generation < b.generation then .ready else .pending

end Barrier

end ShouldIAsync.Tokio
