import Strata.Error
import Strata.Lookup

/-!
# States of many components

Components are seen by many parties at once, so their states stand in one table, by the counts of
the components. A component that the table does not mention is readable. A move is one step: it
finds the state it starts from, or changes nothing.
-/

namespace Strata

namespace State

/-- The state after a move, or the error of a move from elsewhere. -/
def moved (s : State) (m : Move) : Except Error State :=
  match m.apply s with
  | some t => .ok t
  | none => .error (.stateMove s m.target)

theorem moved_eq_ok_iff {s t : State} {m : Move} :
    s.moved m = .ok t ↔ s = m.source ∧ t = m.target := by
  unfold moved Move.apply
  by_cases h : s = m.source <;> simp [h, eq_comm]

end State

/-- The states of components, by count. -/
structure Lifecycle where
  entries : List (Nat × State) := []
deriving DecidableEq, Repr

namespace Lifecycle

/-- The state of a component. -/
def state (l : Lifecycle) (serial : Nat) : State := (l.entries.lookup serial).getD .readable

/-- The table with one state changed. -/
def set (l : Lifecycle) (serial : Nat) (s : State) : Lifecycle :=
  ⟨(serial, s) :: l.entries.filter (·.1 ≠ serial)⟩

@[simp] theorem state_set (l : Lifecycle) (serial other : Nat) (s : State) :
    (l.set serial s).state other = if other = serial then s else l.state other := by
  simp only [state, set]
  rw [Lookup.lookup_cons, Lookup.lookup_filter_ne]
  by_cases h : other = serial <;> simp [h]

/-- Make a move with one component. -/
def move (l : Lifecycle) (serial : Nat) (m : Move) : Except Error Lifecycle := do
  return l.set serial (← (l.state serial).moved m)

/-- Make a move with each of several components, up to the first that cannot make it. Moves made
before stay made. -/
def moveAll (l : Lifecycle) (m : Move) : List Nat → Lifecycle × Except Error Unit
  | [] => (l, .ok ())
  | serial :: rest =>
    match l.move serial m with
    | .error e => (l, .error e)
    | .ok l => moveAll l m rest

/-- Whether a component is free to be merged. -/
def isReadable (l : Lifecycle) (serial : Nat) : Bool := l.state serial = .readable

end Lifecycle

end Strata
