/-!
# Counts of activity

What an index counts: flushes, merges scheduled, completed and failed, producers made to wait,
and invocations of a merge policy that scheduled nothing because a merge was under way.
-/

namespace Strata

/-- The counts. -/
structure Metrics where
  flushes : Nat := 0
  scheduled : Nat := 0
  fullScheduled : Nat := 0
  completed : Nat := 0
  failed : Nat := 0
  blocks : Nat := 0
  deferred : Nat := 0
deriving DecidableEq, Repr, Inhabited

/-- What is counted. -/
inductive Happening where
  | flush
  | scheduled
  | fullScheduled
  | completed
  | failed
  | block
  | deferred
deriving DecidableEq, Repr

/-- Count one happening. -/
def Metrics.record (m : Metrics) : Happening → Metrics
  | .flush => { m with flushes := m.flushes + 1 }
  | .scheduled => { m with scheduled := m.scheduled + 1 }
  | .fullScheduled => { m with fullScheduled := m.fullScheduled + 1 }
  | .completed => { m with completed := m.completed + 1 }
  | .failed => { m with failed := m.failed + 1 }
  | .block => { m with blocks := m.blocks + 1 }
  | .deferred => { m with deferred := m.deferred + 1 }

end Strata
