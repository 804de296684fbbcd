import Strata.Component.Roster
import Strata.Merge.Metrics
import Strata.Merge.Policy
import Strata.Merge.Selection
import Strata.Merge.Tracker

/-!
# Calls of a merge policy

A policy is called whenever a component has been added, by a flush or by a merge. Calls run side
by side, so a call is a thread of small steps, each of which touches one thing it shares with
others: the generation of the tracker, the list of components, the state of one component. A call
of a flush first waits while there are too many small components; one that has waited schedules
nothing. Any other looks through the states of all components, and orders at most one merge, and
none while any component is claimed. Carrying out the order is the index's part.
-/

namespace Strata

/-- What calls of a policy share with each other and with the index. -/
structure Board where
  roster : Roster := {}
  states : Lifecycle := {}
  tracker : Tracker := {}
  metrics : Metrics := {}

namespace Board

/-- Count one happening. -/
def record (b : Board) (h : Happening) : Board := { b with metrics := b.metrics.record h }

/-- Notify all waiting threads. -/
def notify (b : Board) : Board := { b with tracker := b.tracker.notify }

/-- The state of a component. -/
def state (b : Board) (c : Component) : State := b.states.state c.serial

end Board

/-- What a policy orders. -/
inductive Order where
  /-- Merge these components, given newest first. -/
  | run (members : List Component)
  /-- Merge all components. -/
  | everything

/-- Where a call of a policy stands. -/
inductive Phase where
  /-- A merge is done: about to notify those who wait. -/
  | wake
  /-- About to note the generation. -/
  | observe (waited : Bool)
  /-- About to take the list of components. -/
  | look (waited : Bool) (observed : Nat)
  /-- Counting small components, newest first. -/
  | count (waited : Bool) (observed : Nat) (rest : List Component) (small : Nat)
  /-- Too many small components: about to wait. -/
  | drowse (observed : Nat)
  /-- Inside the wait. -/
  | asleep (observed : Nat)
  /-- About to take the list of components, to schedule a merge. -/
  | survey
  /-- Looking through the states of the components listed. -/
  | inspect (listed rest : List Component)
  /-- A merge is ordered. -/
  | ordered (order : Order)
  | finished (answer : Except Error Unit)

/-- A call of a policy. -/
structure Call where
  policy : Policy
  /-- Whether a merge of all components has been asked for. -/
  full : Bool
  phase : Phase

namespace Call

/-- A call for a component that has been added, by a merge or by a flush. -/
def start (policy : Policy) (full : Bool) (added : Component) (byMerge : Bool) : Call where
  policy := policy
  full := full
  phase :=
    if byMerge then .wake
    else
      match policy with
      | .runs largest _ => if added.size ≤ largest then .observe false else .survey
      | .all _ => .survey
      | .never => .finished (.ok ())

/-- What follows once those who wait have been notified. -/
def afterWake : Policy → Phase
  | .never => .finished (.ok ())
  | _ => .survey

/-- The order in which the states of components are looked through. -/
def inspection (policy : Policy) (roster : Roster) : List Component :=
  match policy with
  | .runs .. => roster.oldestFirst
  | _ => roster.newestFirst

/-- What to do with components that are all free, listed in the order of inspection. -/
def choose (policy : Policy) (full : Bool) (listed : List Component) : Phase :=
  if full then .ordered .everything
  else
    match policy with
    | .runs largest tolerance =>
      match Run.select largest tolerance (listed.map Component.size) with
      | some run => .ordered (.run (run.pick listed).reverse)
      | none => .finished (.ok ())
    | .all limit => if limit ≤ listed.length then .ordered (.run listed) else .finished (.ok ())
    | .never => .finished (.ok ())

/-- What follows once the newest small components have been counted. -/
def afterCount (b : Board) (tolerance : Nat) (waited : Bool) (observed small : Nat) :
    Board × Phase :=
  if small ≤ tolerance then (b, if waited then .finished (.ok ()) else .survey)
  else (if waited then b else b.record .block, .drowse observed)

/-- One step of counting. The count stops at a large component, at one that is claimed, and above
the tolerance. -/
def stepCount (b : Board) (largest tolerance : Nat) (waited : Bool) (observed : Nat) :
    (rest : List Component) → (small : Nat) → Board × Phase
  | [], small => afterCount b tolerance waited observed small
  | c :: rest, small =>
    if largest < c.size then afterCount b tolerance waited observed small
    else if b.state c ≠ .readable then afterCount b tolerance waited observed small
    else if tolerance < small + 1 then afterCount b tolerance waited observed (small + 1)
    else (b, .count waited observed rest (small + 1))

/-- The sizes a policy takes for small, and how many of them it tolerates. -/
def limits : Policy → Nat × Nat
  | .runs largest tolerance => (largest, tolerance)
  | _ => (0, 0)

/-- One step of a call. There is none while it waits for a notification, for its order to be
carried out, or when it has finished. -/
def step (b : Board) (c : Call) : Option (Board × Call) :=
  let next (b : Board) (phase : Phase) : Option (Board × Call) := some (b, { c with phase })
  match c.phase with
  | .wake => next b.notify (afterWake c.policy)
  | .observe waited => next b (.look waited b.tracker.generation)
  | .look waited observed => next b (.count waited observed b.roster.newestFirst 0)
  | .count waited observed rest small =>
    let (largest, tolerance) := limits c.policy
    let (b, phase) := stepCount b largest tolerance waited observed rest small
    next b phase
  | .drowse observed =>
    if b.tracker.holds observed then
      next { b with tracker := b.tracker.enter } (.asleep observed)
    else next b (.observe true)
  | .asleep observed =>
    if b.tracker.holds observed then none
    else next { b with tracker := b.tracker.leave } (.observe true)
  | .survey =>
    let listed := inspection c.policy b.roster
    next b (.inspect listed listed)
  | .inspect listed (first :: rest) =>
    if b.state first = .readable then next b (.inspect listed rest)
    else next (b.record .deferred) (.finished (.ok ()))
  | .inspect listed [] => next b (choose c.policy c.full listed)
  | .ordered _ => none
  | .finished _ => none

/-- What is counted when a merge has been scheduled. -/
def happening (full : Bool) : Happening := if full then .fullScheduled else .scheduled

/-- Take the answer to an order: whether a merge was scheduled, or the error. -/
def reply (b : Board) (c : Call) : (answer : Except Error Bool) → Board × Call
  | .ok true => (b.record (happening c.full), { c with phase := .finished (.ok ()) })
  | .ok false => (b, { c with phase := .finished (.ok ()) })
  | .error e => (b, { c with phase := .finished (.error e) })

/-- The order of a call that is waiting for it to be carried out. -/
def order? (c : Call) : Option Order :=
  match c.phase with
  | .ordered order => some order
  | _ => none

/-- The answer of a call that has finished. -/
def answer? (c : Call) : Option (Except Error Unit) :=
  match c.phase with
  | .finished answer => some answer
  | _ => none

/-- Steps one after the other, up to `count`, until there is none. -/
def run : (count : Nat) → Board → Call → Board × Call
  | 0, b, c => (b, c)
  | count + 1, b, c =>
    match c.step b with
    | none => (b, c)
    | some (b, c) => run count b c

/-- A bound on the steps of a call that nobody disturbs: it counts all components at most twice
and looks through them once. -/
def bound (b : Board) : Nat := 3 * b.roster.length + 16

/-- Steps until a call that nobody disturbs orders a merge, waits, or has finished. -/
def settle (b : Board) (c : Call) : Board × Call := c.run (bound b) b

end Call

end Strata
