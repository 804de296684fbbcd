/-!
# Lifecycle states

A component of an index is in one of four states. The memory component stays writable. A
component on disk is readable, is claimed by a merge, and ends inactive once the result of that
merge has taken its place; a merge that fails hands it back. These three moves are the only ones.
-/

namespace Strata

/-- The state of a component. -/
inductive State where
  /-- In memory, open for writing. -/
  | writable
  /-- On disk, free to be merged. -/
  | readable
  /-- On disk, claimed by a merge. -/
  | merging
  /-- Replaced by the result of a merge. -/
  | inactive
deriving DecidableEq, Repr, Inhabited

namespace State

/-- The name of a state in messages. -/
def name : State → String
  | .writable => "ReadableWritable"
  | .readable => "ReadableUnwritable"
  | .merging => "ReadableUnwritableMerging"
  | .inactive => "Inactive"

end State

/-- A change of state: claimed by a merge, replaced by its result, or handed back. -/
inductive Move where
  | claim
  | replace
  | release
deriving DecidableEq, Repr

namespace Move

/-- The one state a move starts from. -/
def source : Move → State
  | .claim => .readable
  | .replace => .merging
  | .release => .merging

/-- The state a move leads to. -/
def target : Move → State
  | .claim => .merging
  | .replace => .inactive
  | .release => .readable

/-- The state after a move, or none where the move does not start. -/
def apply (m : Move) (s : State) : Option State :=
  if s = m.source then some m.target else none

@[simp] theorem apply_source (m : Move) : m.apply m.source = some m.target := by
  simp [apply]

theorem apply_eq_none_iff {m : Move} {s : State} : m.apply s = none ↔ s ≠ m.source := by
  simp [apply]

end Move

end Strata
