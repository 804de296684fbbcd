import Strata.Merge.Call

/-!
# Rehearsals of a policy

A policy is tried on components that have a size and a state but no file. Producers add
components and may be made to wait; ordered merges become jobs that are completed or failed by
hand. Merges can be made to fail at scheduling, or to be lost to another party that is quicker.
-/

namespace Strata

/-- How orders are answered. -/
inductive Mode where
  | normal
  /-- The queue is closed: an error. -/
  | failing
  /-- Another party was quicker: nothing is scheduled. -/
  | losing
deriving DecidableEq, Repr

/-- A merge that was scheduled. -/
structure Rehearsal.Job where
  full : Bool
  members : List Component
  done : Bool := false

/-- A policy tried on components without files. -/
structure Rehearsal where
  policy : Policy
  board : Board := {}
  mode : Mode := .normal
  jobs : List Rehearsal.Job := []
  /-- The count of the next component. -/
  nextSerial : Nat := 0
  /-- The number of the next producer. -/
  nextProducer : Nat := 0
  /-- The producers that wait. -/
  blocked : List (Nat × Call) := []

namespace Rehearsal

/-- What became of a producer. -/
inductive Answer where
  | returned
  | blocked
  | failed (e : Error)

/-- Add a newest component. -/
def push (r : Rehearsal) (size : Nat) : Rehearsal × Component :=
  let c : Component := { serial := r.nextSerial, range := .single r.nextSerial, size }
  ({ r with
    board := { r.board with roster := r.board.roster.prepend c }
    nextSerial := r.nextSerial + 1 }, c)

/-- A policy on components of given sizes, oldest first. -/
def start (policy : Policy) (sizes : List Nat) : Rehearsal :=
  sizes.foldl (fun r size => (r.push size).1) { policy }

/-- Schedule a merge: claim its members. -/
def schedule (r : Rehearsal) (full : Bool) (members : List Component) :
    Rehearsal × Except Error Bool :=
  match r.mode with
  | .failing => (r, .error (.refusal .queueClosed))
  | .losing => (r, .ok false)
  | .normal =>
    match r.board.states.moveAll .claim (members.map Component.serial) with
    | (states, .error e) => ({ r with board := { r.board with states } }, .error e)
    | (states, .ok ()) =>
      ({ r with board := { r.board with states }, jobs := r.jobs ++ [{ full, members }] }, .ok true)

/-- Carry out an order. -/
def carryOut (r : Rehearsal) : Order → Rehearsal × Except Error Bool
  | .run members => r.schedule false members
  | .everything => r.schedule true r.board.roster.newestFirst

/-- Run a call until it waits or has finished. -/
def runCall (r : Rehearsal) (c : Call) : Rehearsal × Call :=
  let (board, c) := c.settle r.board
  let r := { r with board }
  match c.order? with
  | none => (r, c)
  | some order =>
    let (r, answer) := r.carryOut order
    let (board, c) := c.reply r.board answer
    ({ r with board }, c)

/-- A producer calls the policy for a component. -/
def produce (r : Rehearsal) (full : Bool) (added : Component) : Rehearsal × Nat × Answer :=
  let producer := r.nextProducer
  let (r, c) := { r with nextProducer := producer + 1 }.runCall (.start r.policy full added false)
  match c.answer? with
  | some (.ok ()) => (r, producer, .returned)
  | some (.error e) => (r, producer, .failed e)
  | none => ({ r with blocked := r.blocked ++ [(producer, c)] }, producer, .blocked)

/-- Let the producers that wait look again. The answer is those that go on, with what became of
them. -/
def resume (r : Rehearsal) : Rehearsal × List (Nat × Except Error Unit) :=
  r.blocked.foldl
    (fun (r, resumed) (producer, c) =>
      let (r, c) := r.runCall c
      match c.answer? with
      | some answer => (r, resumed ++ [(producer, answer)])
      | none => ({ r with blocked := r.blocked ++ [(producer, c)] }, resumed))
    ({ r with blocked := [] }, [])

/-- Notify the producers that wait. -/
def notify (r : Rehearsal) : Rehearsal × List (Nat × Except Error Unit) :=
  { r with board := r.board.notify }.resume

/-- Call the policy for the result of a merge, and notify once more. -/
def merged (r : Rehearsal) (full : Bool) (added : Component) :
    Rehearsal × Except Error (List (Nat × Except Error Unit)) :=
  let (r, c) := r.runCall (.start r.policy full added true)
  let (r, resumed) := r.notify
  match c.answer? with
  | some (.error e) => (r, .error e)
  | _ => (r, .ok resumed)

/-- Make a move with the members of a job that is done now. -/
def settleJob (r : Rehearsal) (index : Nat) (job : Job) (m : Move) :
    Rehearsal × Except Error Unit :=
  let jobs := r.jobs.set index { job with done := true }
  let (states, answer) := r.board.states.moveAll m (job.members.map Component.serial)
  ({ r with jobs, board := { r.board with states } }, answer)

/-- The size of the result of a job: a given one, or that of its members together, which a word
must hold. -/
def resultSize (job : Job) : (size : Option Nat) → Outcome Nat
  | some size => .ok size
  | none => Outcome.ofWord (job.members.map Component.size).sum

/-- Complete a job, with a result of a given size or of that of its members together. -/
def complete (r : Rehearsal) (index : Nat) (size : Option Nat) (full : Bool) :
    Rehearsal × Outcome (List (Nat × Except Error Unit)) :=
  match r.jobs[index]? with
  | none => (r, .error .breach)
  | some job =>
    match resultSize job size, Range.span (job.members.map Component.range) with
    | .error e, _ => ({ r with jobs := r.jobs.set index { job with done := true } }, .error e)
    | .ok _, none => (r, .error .breach)
    | .ok size, some range =>
      let result : Component := { serial := r.nextSerial, range, size }
      let r := { r with nextSerial := r.nextSerial + 1 }
      match r.board.roster.replace (job.members.map Component.id) result with
      | .error e =>
        ({ r with jobs := r.jobs.set index { job with done := true } }, .error (.error e))
      | .ok roster =>
        match { r with board := { r.board with roster } }.settleJob index job .replace with
        | (r, .error e) => (r, .error (.error e))
        | (r, .ok ()) =>
          let (r, answer) := r.merged full result
          (r, Outcome.ofExcept answer)

/-- Fail a job: hand its members back. -/
def fail (r : Rehearsal) (index : Nat) (full : Bool) :
    Rehearsal × Outcome (List (Nat × Except Error Unit)) :=
  match r.jobs[index]? with
  | none => (r, .error .breach)
  | some job =>
    match r.settleJob index job .release, job.members with
    | (r, .error e), _ => (r, .error (.error e))
    | (r, .ok ()), [] => (r, .error .breach)
    | (r, .ok ()), newest :: _ =>
      let (r, answer) := r.merged full newest
      (r, Outcome.ofExcept answer)

/-- Make a move with one component. -/
def move (r : Rehearsal) (id : Nat) (m : Move) : Rehearsal × Except Error Unit :=
  match r.board.states.move id m with
  | .error e => (r, .error e)
  | .ok states => ({ r with board := { r.board with states } }, .ok ())

end Rehearsal

end Strata
