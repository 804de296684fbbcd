import Strata.Directory
import Strata.Memory
import Strata.Merge.Call
import Strata.Pool
import Strata.Store.Options

/-!
# The state of an index

An open index is worked on by many threads: clients that call it, and workers that merge. Each
thread is a position in what it has to do; a step of one thread touches one thing that others can
see. This module holds the positions and the state they share. The steps are in the modules that
follow: scheduling, merging, and the calls of clients.
-/

namespace Strata

/-- Where the scheduling of a merge stands. `all` tells a merge of all components. -/
inductive Scheduling where
  /-- About to take back the request for a merge of all components. -/
  | clear
  /-- About to take the list of all components. -/
  | gather
  /-- Claiming members one by one. -/
  | claim (all : Bool) (claimed rest : List Component)
  /-- Handing back the members claimed before one was found taken. -/
  | giveUp (all : Bool) (rest : List Component)
  /-- All members are claimed: about to count the merge as in flight. -/
  | enlist (all : Bool) (members : List Component)
  /-- About to submit the merge. -/
  | submit (all : Bool) (members : List Component)
  /-- The merge was refused: about to count it no more. -/
  | withdraw (all : Bool) (members : List Component) (e : Error)
  /-- Handing back the members of a merge that was refused. -/
  | handBack (all : Bool) (rest : List Component) (e : Error)
  /-- Nothing was submitted: about to renew the request for a merge of all components. -/
  | restore (answer : Except Error Bool)
  | answered (answer : Except Error Bool)

/-- A call of the merge policy, with the scheduling of what it ordered. -/
inductive Consultation where
  | thinking (call : Call)
  | scheduling (call : Call) (phase : Scheduling)

/-- Where a merge stands. -/
inductive Job.Phase where
  /-- About to read the members. -/
  | read
  /-- About to count the result. -/
  | number (tuples : List Tuple)
  /-- About to write the result. -/
  | build (serial : Nat) (tuples : List Tuple)
  /-- About to put the result in the place of the members. -/
  | swap (result : Component)
  /-- Making the members inactive one by one. -/
  | retire (result : Component) (rest : List Component)
  /-- About to report success. -/
  | succeed (result : Component)
  /-- About to report failure. -/
  | fail (e : Error)
  /-- Handing back the members one by one. -/
  | release (rest : List Component)
  /-- About to call the merge policy. -/
  | consider (added : Component)
  | consult (k : Consultation)
  /-- About to count the merge no more. -/
  | land
  /-- About to notify those who wait. -/
  | signal
  | over
  /-- Broken off by a broken precondition, and the worker with it. -/
  | lost

/-- A merge. -/
structure Job where
  /-- The members, newest first. -/
  members : List Component
  phase : Job.Phase := .read

/-- Where a call of a client stands. -/
inductive Task where
  /-- About to put a tuple into memory. -/
  | insert (key : Bytes) (tuple : Tuple)
  /-- About to flush. -/
  | flush
  /-- A flush wrote a component: about to report it. -/
  | report (added : Component)
  /-- About to ask for a merge of all components. -/
  | request
  /-- About to see whether memory holds anything. -/
  | requested
  /-- About to look for the newest component. -/
  | newest
  | consult (k : Consultation)
  /-- Waiting for merges: about to note the generation. -/
  | drain
  /-- About to see whether merges are in flight. -/
  | draining (observed : Nat)
  /-- Merges are in flight: about to wait. -/
  | drowse (observed : Nat)
  /-- Inside the wait. -/
  | asleep (observed : Nat)
  | returned (answer : Outcome Unit)

/-- What an index reports. -/
inductive Event where
  | flushed (c : Component) (state : State)
  | merged (c : Component) (state : State)
  | failed (e : Error)

/-- An open index. -/
structure Store where
  options : Options
  policy : Policy
  format : Format
  files : Directory
  memory : Memory
  board : Board := {}
  /-- The count of the next flush. The stamp of a flush is its count within a word. -/
  nextStamp : Nat := 0
  /-- The count of the next component. -/
  nextSerial : Nat := 0
  /-- Whether a merge of all components has been asked for. -/
  fullRequested : Bool := false
  /-- The merges submitted, or being submitted, and not yet landed. -/
  inFlight : Nat := 0
  /-- The merges that have failed since the last one that succeeded. -/
  failures : Nat := 0
  pool : Pool Job
  /-- The components merged away whose files are still there. -/
  retired : List Component := []
  /-- What has been reported, in order. -/
  events : List Event := []
  /-- The calls of clients. -/
  clients : List Task := []

namespace Store

/-- How often a failed merge is tried again. -/
def retryLimit : Nat := 2

/-- The path of a file. -/
def path (s : Store) (name : String) : String := s.options.folder ++ "/" ++ name

/-- Count one happening. -/
def record (s : Store) (h : Happening) : Store := { s with board := s.board.record h }

/-- Report something. -/
def report (s : Store) (e : Event) : Store := { s with events := s.events ++ [e] }

/-- Make a move with a component. -/
def move (s : Store) (c : Component) (m : Move) : Except Error Store := do
  let states ← s.board.states.move c.serial m
  return { s with board := { s.board with states } }

/-- The state of a component. -/
def state (s : Store) (c : Component) : State := s.board.state c

end Store

end Strata
