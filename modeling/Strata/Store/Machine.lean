import Strata.Store.Calls
import Strata.Store.Merging

/-!
# The index as a machine

Clients, workers and the removal of files act in any order, one step at a time. An action that
cannot be taken in a state gives none. Whatever holds of all runs of this machine holds however
the threads of an index interleave.
-/

namespace Strata

/-- What can happen next. -/
inductive Action where
  /-- A client begins a call. -/
  | call (task : Task)
  /-- A client takes a step. -/
  | client (i : Nat)
  /-- An idle worker takes what is next in the queue. -/
  | take (worker : Nat)
  /-- A busy worker takes a step. -/
  | work (worker : Nat)
  /-- The file of a component merged away is removed. -/
  | reap (serial : Nat)
  /-- A shutdown of the workers begins. -/
  | shutdown

namespace Store

/-- What becomes of the worker of a job. -/
def workerOf (job : Job) : Worker Job :=
  if job.isOver then .idle else if job.isLost then .gone else .busy job

/-- A step of the job a worker is at. -/
def work (s : Store) (i : Nat) : Option Store := do
  let job ← s.pool.jobOf? i
  let (s, job) ← s.stepJob job
  return { s with pool := s.pool.setWorker i (workerOf job) }

/-- A step of the call of a client. -/
def client (s : Store) (i : Nat) : Option Store := do
  let task ← s.clients[i]?
  let (s, task) ← s.stepTask task
  return { s with clients := s.clients.set i task }

/-- Remove the file of a component merged away. -/
def reap (s : Store) (serial : Nat) : Option Store := do
  let c ← s.retired.find? (·.serial = serial)
  let name ← c.file.toOption
  return { s with
    files := s.files.erase name
    retired := s.retired.filter (·.serial ≠ serial) }

/-- The state after an action, if it can be taken. -/
def step (s : Store) : Action → Option Store
  | .call task => some { s with clients := s.clients ++ [task] }
  | .client i => s.client i
  | .take i => (s.pool.take i).map fun pool => { s with pool }
  | .work i => s.work i
  | .reap serial => s.reap serial
  | .shutdown => some { s with pool := s.pool.shutdown }

/-- The state after a run of actions, if all of them can be taken. -/
def run (s : Store) : List Action → Option Store
  | [] => some s
  | a :: rest => (s.step a).bind fun s => run s rest

end Store

end Strata
