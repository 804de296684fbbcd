import Strata.Store.Machine

/-!
# Running an index

One client calls the index and waits until no merge is in flight before it goes on. A call that
waits while no merge is in flight would wait for ever; it is let go instead. Runs are cut off
after a number of steps that covers every cascade of merges that ends.
-/

namespace Strata

/-- What became of a call. -/
inductive Verdict where
  | returned (answer : Outcome Unit)
  /-- The call would have waited for ever. -/
  | blocked

namespace Store

/-- A step of the first worker that can take one, be it of its job or to take another. -/
def stepWorkers (s : Store) : Option Store :=
  (List.range s.pool.workers.length).findSome? fun i =>
    (s.work i).or ((s.pool.take i).map fun pool => { s with pool })

/-- A bound on the steps that follow a call. Each of the merges in a cascade takes a few steps for
each component, and all but a few of them leave fewer components. -/
def patience (s : Store) : Nat := 64 * (s.board.roster.length + 8) ^ 2

/-- Steps of workers, up to `count`. -/
def runWorkers : (count : Nat) → Store → Store
  | 0, s => s
  | count + 1, s =>
    match s.stepWorkers with
    | none => s
    | some s => runWorkers count s

/-- Let the workers do all there is to do. -/
def quiesce (s : Store) : Store := s.runWorkers s.patience

/-- Take a client out of its wait. -/
def letGo (s : Store) (task : Task) : Store :=
  if task.isAsleep then
    { s with board := { s.board with tracker := s.board.tracker.leave } }
  else s

/-- Run a call, workers going on where it waits, up to `count` steps. -/
def runTask : (count : Nat) → Store → Task → Store × Verdict
  | 0, s, task => (s.letGo task, .blocked)
  | count + 1, s, task =>
    match task.answer? with
    | some answer => (s, .returned answer)
    | none =>
      match s.stepTask task with
      | some (s, task) => runTask count s task
      | none =>
        match s.stepWorkers with
        | some s => runTask count s task
        | none => (s.letGo task, .blocked)

/-- Make a call and wait until no merge is in flight. -/
def perform (s : Store) (task : Task) : Store × Verdict :=
  let (s, verdict) := s.runTask (2 * s.patience) task
  (s.quiesce, verdict)

/-- Insert a tuple. -/
def insert (s : Store) (tuple : Tuple) : Store × Verdict :=
  match s.accept tuple with
  | .error e => (s, .returned (.error e))
  | .ok key => s.perform (.insert key tuple)

/-- Insert tuples up to the first error, and count the calls that were let go. -/
def insertAll (s : Store) : List Tuple → Store × Outcome Nat
  | [] => (s, .ok 0)
  | tuple :: rest =>
    match s.insert tuple with
    | (s, .returned (.error e)) => (s, .error e)
    | (s, .returned (.ok ())) => insertAll s rest
    | (s, .blocked) =>
      let (s, answer) := insertAll s rest
      (s, answer.map (· + 1))

/-- Flush memory. -/
def flush (s : Store) : Store × Verdict := s.perform .flush

/-- Ask for a merge of all components. -/
def requestFullMerge (s : Store) : Store × Verdict := s.perform .request

/-- Wait until no merge is in flight. -/
def awaitMerges (s : Store) : Store × Verdict := s.perform .drain

/-- Flush memory and wait until no merge is in flight. -/
def close (s : Store) : Store × Verdict :=
  match s.flush with
  | (s, .returned (.ok ())) => s.awaitMerges
  | (s, verdict) => (s, verdict)

/-- Make a move with a listed component. -/
def mark (s : Store) (id : Nat) (m : Move) : Store × Outcome Unit :=
  match s.board.roster.get? id with
  | none => (s, .error .breach)
  | some c =>
    match s.move c m with
    | .error e => (s, .error (.error e))
    | .ok s => (s, .ok ())

/-- Hand over what has been reported so far. -/
def takeEvents (s : Store) : Store × List Event := ({ s with events := [] }, s.events)

end Store

end Strata
