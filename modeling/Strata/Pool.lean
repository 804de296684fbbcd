import Strata.Bytes
import Strata.Error

/-!
# Pools of workers

A fixed number of workers, at least one, take jobs from one queue in the order they were
submitted. A shutdown puts one stop message for each worker behind the jobs queued so far; a
worker that takes one is gone. A pool whose workers are all gone refuses jobs.
-/

namespace Strata

/-- What the queue of a pool holds. -/
inductive Message (α : Type) where
  | run (job : α)
  | stop
deriving DecidableEq, Repr

/-- A worker of a pool. -/
inductive Worker (α : Type) where
  | idle
  | busy (job : α)
  | gone
deriving DecidableEq, Repr

/-- A pool of workers. -/
structure Pool (α : Type) where
  queue : List (Message α) := []
  workers : List (Worker α)
  /-- Whether a shutdown has begun. -/
  closing : Bool := false
deriving DecidableEq, Repr

namespace Pool

variable {α : Type}

/-- A pool of `threads` workers, of one where none are asked for. -/
def start (threads : Nat) : Pool α where
  workers := List.replicate (max threads 1) .idle

/-- The bytes set aside for each worker of a pool. -/
def workerSize : Nat := 24

/-- A pool of `threads` workers, if room for them can be set aside. -/
def hire (threads : Nat) : Outcome (Pool α) :=
  if threads * workerSize < Bytes.limit then .ok (start threads) else .error .breach

/-- Whether a worker is gone. -/
def isGone : Worker α → Bool
  | .gone => true
  | _ => false

/-- Whether all workers are gone. -/
def isClosed (p : Pool α) : Bool := p.workers.all isGone

/-- Put a job into the queue. -/
def submit (p : Pool α) (job : α) : Except Error (Pool α) :=
  if p.isClosed then .error (.refusal .workersGone)
  else .ok { p with queue := p.queue ++ [.run job] }

/-- Begin to shut down. A second shutdown finds nobody left to tell. -/
def shutdown (p : Pool α) : Pool α :=
  if p.closing then p
  else
    { p with
      queue := p.queue ++ List.replicate p.workers.length .stop
      closing := true }

/-- The job a worker is at. -/
def jobOf? (p : Pool α) (i : Nat) : Option α :=
  match p.workers[i]? with
  | some (.busy job) => some job
  | _ => none

/-- Set what a worker is at. -/
def setWorker (p : Pool α) (i : Nat) (worker : Worker α) : Pool α :=
  { p with workers := p.workers.set i worker }

/-- An idle worker takes the next message. -/
def take (p : Pool α) (i : Nat) : Option (Pool α) :=
  match p.workers[i]?, p.queue with
  | some .idle, .run job :: queue => some ({ p with queue }.setWorker i (.busy job))
  | some .idle, .stop :: queue => some ({ p with queue }.setWorker i .gone)
  | _, _ => none

/-- A busy worker has done its job. -/
def finish (p : Pool α) (i : Nat) : Option (Pool α × α) :=
  (p.jobOf? i).map fun job => (p.setWorker i .idle, job)

/-- Let one worker take and do messages, up to `count` of them. The answer is the jobs done, in
order. -/
def drain : (count : Nat) → Pool α → (i : Nat) → Pool α × List α
  | 0, p, _ => (p, [])
  | count + 1, p, i =>
    match p.take i with
    | none => (p, [])
    | some p =>
      match p.finish i with
      | none => drain count p i
      | some (p, job) =>
        let (p, jobs) := drain count p i
        (p, job :: jobs)

/-- Let every worker in turn take and do what is queued. -/
def drainAll (p : Pool α) : Pool α × List α :=
  (List.range p.workers.length).foldl
    (fun (p, done) i =>
      let (p, jobs) := p.drain p.queue.length i
      (p, done ++ jobs))
    (p, [])

end Pool

end Strata
