import Strata.Numeral

/-!
# The tracker

Producers wait for merges at a tracker. Every notification raises its generation, which counts
modulo 2 ^ 64. A thread notes the generation before it looks at the list of components and waits
only while the generation is still the one it noted, so a notification in between is not lost. A
thread inside the wait is counted as waiting.
-/

namespace Strata

/-- The generation of a tracker, and the number of threads inside its wait. -/
structure Tracker where
  generation : Nat := 0
  waiting : Nat := 0
deriving DecidableEq, Repr, Inhabited

namespace Tracker

/-- Notify all threads that wait. -/
def notify (t : Tracker) : Tracker := { t with generation := (t.generation + 1) % Numeral.word }

/-- Go inside the wait. -/
def enter (t : Tracker) : Tracker := { t with waiting := t.waiting + 1 }

/-- Leave the wait. -/
def leave (t : Tracker) : Tracker := { t with waiting := t.waiting - 1 }

/-- Whether a thread that noted a generation has to wait. -/
def holds (t : Tracker) (observed : Nat) : Bool := t.generation = observed

@[simp] theorem generation_enter (t : Tracker) : t.enter.generation = t.generation := rfl

@[simp] theorem generation_leave (t : Tracker) : t.leave.generation = t.generation := rfl

@[simp] theorem waiting_enter (t : Tracker) : t.enter.waiting = t.waiting + 1 := rfl

/-- A thread that goes inside and leaves again is not counted any more. -/
@[simp] theorem leave_enter (t : Tracker) : t.enter.leave = t := by
  simp [enter, leave]

@[simp] theorem waiting_notify (t : Tracker) : t.notify.waiting = t.waiting := rfl

end Tracker

/-- A tracker with the threads inside its wait, by the generation each has noted. -/
structure Rendezvous where
  tracker : Tracker := {}
  waiters : List Nat := []
deriving DecidableEq, Repr

namespace Rendezvous

/-- A thread that noted a generation waits, unless the generation has moved on. The answer is
whether it waits. -/
def wait (r : Rendezvous) (observed : Nat) : Rendezvous × Bool :=
  if r.tracker.holds observed then
    (⟨r.tracker.enter, r.waiters ++ [observed]⟩, true)
  else (r, false)

/-- Notify all threads, and let go those whose generation has passed. The answer is their number.
-/
def notify (r : Rendezvous) : Rendezvous × Nat :=
  let tracker := r.tracker.notify
  let staying := r.waiters.filter tracker.holds
  let released := r.waiters.length - staying.length
  (⟨{ tracker with waiting := tracker.waiting - released }, staying⟩, released)

end Rendezvous

end Strata
